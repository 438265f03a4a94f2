import PagedServing.Scheduler.Labels

/-! # What a scheduler holds under one id

Each issued id is held in one of the four containers. The operations of a step,
seen from one id.
-/

namespace PagedServing

open Relation

inductive Held where
  | pending (r : Request)
  | prefill (seq : Sequence)
  | decode (seq : Sequence)
  | completed (r : Request)

namespace Scheduler

variable {s s' : Scheduler} {st : ScheduleState} {id : SeqId} {seq : Sequence} {r : Request}
  {held held' : Held}

def Holds (s : Scheduler) (id : SeqId) : Held → Prop
  | .pending r => ⟨id, r⟩ ∈ s.pendingQueue
  | .prefill seq => s.prefillSequences[id]? = some seq
  | .decode seq => s.decodeSequences[id]? = some seq
  | .completed r => (id, r) ∈ s.completedRequests

namespace Holds

theorem pending {p : PendingRequest} (h : p ∈ s.pendingQueue) :
    s.Holds p.seqId (.pending p.request) := h

theorem prefill (h : s.prefillSequences[id]? = some seq) : s.Holds id (.prefill seq) := h

theorem decode (h : s.decodeSequences[id]? = some seq) : s.Holds id (.decode seq) := h

theorem completed (h : (id, r) ∈ s.completedRequests) : s.Holds id (.completed r) := h

end Holds

theorem mem_ids_iff : id ∈ s.ids ↔ ∃ held, s.Holds id held := by
  simp only [ids, List.mem_append, List.mem_map, IdMap.mem_keys]
  constructor
  · rintro (((⟨p, hp, rfl⟩ | ⟨seq, h⟩) | ⟨seq, h⟩) | ⟨r, hr, rfl⟩)
    · exact ⟨.pending p.request, hp⟩
    · exact ⟨.prefill seq, h⟩
    · exact ⟨.decode seq, h⟩
    · exact ⟨.completed r.2, hr⟩
  · rintro ⟨held, h⟩
    cases held with
    | pending r => exact .inl (.inl (.inl ⟨_, h, rfl⟩))
    | prefill seq => exact .inl (.inl (.inr ⟨seq, h⟩))
    | decode seq => exact .inl (.inr ⟨seq, h⟩)
    | completed r => exact .inr ⟨_, h, rfl⟩

theorem active_none_of_not_mem_ids (h : id ∉ s.ids) : s.active id = none := by
  cases ha : s.active id with
  | none => rfl
  | some seq =>
      refine absurd (mem_ids_iff.2 ?_) h
      rcases Option.or_eq_some_iff.1 ha with hp | ⟨-, hd⟩
      · exact ⟨_, .prefill hp⟩
      · exact ⟨_, .decode hd⟩

/-- What an id can be held as, by whether it is active. -/
theorem Wf.active_of_holds (hw : s.Wf) (h : s.Holds id held) :
    match held with
    | .pending _ | .completed _ => s.active id = none
    | .prefill seq | .decode seq => s.active id = some seq := by
  cases held with
  | pending r => exact hw.active_none_of_pending h
  | prefill seq => exact active_of_prefill h
  | decode seq => exact hw.active_of_decode h
  | completed r => exact hw.active_none_of_completed h

/-- An id is held once. -/
theorem Wf.holds_unique (hw : s.Wf) (h : s.Holds id held) (h' : s.Holds id held') :
    held = held' := by
  have ha := hw.active_of_holds h
  have ha' := hw.active_of_holds h'
  cases held with
  | pending r =>
      cases held' with
      | pending r' =>
          have := List.inj_on_of_nodup_map hw.nodup_parts.1 h h' rfl
          rw [PendingRequest.mk.injEq] at this
          rw [this.2]
      | prefill seq => simp [ha] at ha'
      | decode seq => simp [ha] at ha'
      | completed r' => exact absurd rfl (not_pending_of_completed hw h' _ h)
  | prefill seq =>
      cases held' with
      | pending r => simp [ha] at ha'
      | prefill seq' => rw [Option.some.inj (ha.symm.trans ha')]
      | decode seq' =>
          have hnone := hw.nodup_parts.2.2 h
          rw [Holds] at h'
          simp [h'] at hnone
      | completed r => simp [ha] at ha'
  | decode seq =>
      cases held' with
      | pending r => simp [ha] at ha'
      | prefill seq' =>
          have hnone := hw.nodup_parts.2.2 h'
          rw [Holds] at h
          simp [h] at hnone
      | decode seq' => rw [Option.some.inj (ha.symm.trans ha')]
      | completed r => simp [ha] at ha'
  | completed r =>
      cases held' with
      | pending r' => exact absurd rfl (not_pending_of_completed hw h _ h')
      | prefill seq => simp [ha] at ha'
      | decode seq => simp [ha] at ha'
      | completed r' =>
          have := List.inj_on_of_nodup_map hw.completed_nodup h h' rfl
          rw [Prod.mk.injEq] at this
          rw [this.2]

theorem Moves.holds (hw : s.Wf) (hm : Moves s s') (h : s.Holds id held) :
    ∃ held', s'.Holds id held' :=
  mem_ids_iff.1 ((Moves.evolves hw hm).ids.mem_iff.2 (mem_ids_iff.2 ⟨held, h⟩))

/-- The ids that are still held when the completed buffer has been taken out. -/
theorem holds_takeCompleted : s.takeCompletedWithSeqIds.2.Holds id held ↔
    s.Holds id held ∧ ∀ r, held ≠ .completed r := by
  cases held <;> simp [Holds, takeCompletedWithSeqIds]

/-! ## Removals -/

namespace RemovedAll

variable {ends : List (SeqId × Request)}

theorem holds_of_not_mem (h : s.RemovedAll ends s') (hid : id ∉ ends.map Prod.fst) :
    s'.Holds id held ↔ s.Holds id held := by
  cases held with
  | pending r => simp only [Holds, h.pending]
  | prefill seq => simp only [Holds, h.prefill, if_neg hid]
  | decode seq => simp only [Holds, h.decode, if_neg hid]
  | completed r =>
      have hno : (id, r) ∉ ends := fun hmem => hid (List.mem_map_of_mem hmem)
      simp only [Holds, h.completed, List.mem_append, or_iff_left hno]

theorem holds_of_mem (h : s.RemovedAll ends s') (hid : (id, r) ∈ ends) :
    s'.Holds id (.completed r) := by
  rw [Holds, h.completed]
  exact List.mem_append_right _ hid

theorem idle (h : s.RemovedAll ends s') (hidle : s.prefillSequences = ∅) :
    s'.prefillSequences = ∅ := by
  rw [IdMap.eq_empty_iff]
  intro k
  rw [h.prefill, hidle]
  simp

end RemovedAll

/-! ## The update after a batch -/

namespace Updated

variable {eosTokenId : TokenId} {rows : List (SeqId × OutputRow)}

theorem holds_of_not_mem (h : s.Updated eosTokenId rows s') (hid : id ∉ rows.map Prod.fst) :
    s'.Holds id held ↔ s.Holds id held := by
  have hnone := IdMap.lookup_eq_none_of_not_mem hid
  cases held with
  | pending r => simp only [Holds, h.pending]
  | prefill seq => simp [Holds, h.prefill, hnone]
  | decode seq => simp [Holds, h.decode, hnone]
  | completed r =>
      rw [Holds, Holds, h.completed, List.mem_append, or_iff_left]
      intro hmem
      obtain ⟨row, hrow, hend⟩ := List.mem_filterMap.1 hmem
      obtain ⟨seq, -, hend⟩ := Option.bind_eq_some_iff.1 hend
      rw [Option.ite_none_right_eq_some, Option.some.injEq] at hend
      exact hid (List.mem_map.2 ⟨row, hrow, congrArg Prod.fst hend.2⟩)

/-- A row completes its sequence or leaves it in the decode phase. -/
theorem holds_of_mem {row : OutputRow} (h : s.Updated eosTokenId rows s')
    (hrow : rows.lookup id = some row) (hseq : s.active id = some seq) :
    s'.Holds id (if s.finishes eosTokenId (seq.next row) then
      .completed { (seq.next row).request with state := .completed } else .decode (seq.next row)) := by
  split
  next hfin =>
    rw [Holds, h.completed]
    refine List.mem_append_right _ (List.mem_filterMap.2 ⟨_, IdMap.mem_of_lookup_eq_some hrow, ?_⟩)
    simp [hseq, hfin]
  next hopen =>
    rw [Holds, h.decode, hrow, hseq]
    simp [hopen]

end Updated

/-! ## Failures -/

theorem failSequence_holds_ne (hw : s.Wf) {a : SeqId} (hne : a ≠ id) (reason : String) :
    (s.failSequence a reason).Holds id held ↔ s.Holds id held := by
  rcases failSequence_cases s a reason with h | ⟨-, p, queue, -, hpa, hperm, heq⟩ | ⟨-, -, heq⟩
  · obtain ⟨seq, hretired⟩ := retire_spec hw h
    refine (removedAll_of_retire hw (by exact trivial) h hretired.was).holds_of_not_mem ?_
    simpa using hne.symm
  · rw [heq]
    cases held with
    | pending r =>
        have hother : (⟨id, r⟩ : PendingRequest) ≠ p := by
          rintro rfl
          exact hne hpa.symm
        simp [Holds, hperm.mem_iff, hother]
    | prefill seq => rfl
    | decode seq => rfl
    | completed r =>
        have hother : id ≠ p.seqId := fun h => hne (hpa.symm.trans h.symm)
        simp [Holds, hother]
  · rw [heq]

theorem failSequence_idle (hw : s.Wf) (h : s.prefillSequences = ∅) (a : SeqId) (reason : String) :
    (s.failSequence a reason).prefillSequences = ∅ := by
  rcases failSequence_cases s a reason with hr | ⟨-, p, queue, -, -, -, heq⟩ | ⟨-, -, heq⟩
  · obtain ⟨seq, hretired⟩ := retire_spec hw hr
    rw [IdMap.eq_empty_iff]
    intro k
    rw [hretired.prefill, h]
    simp
  · rw [heq]
    exact h
  · rw [heq]
    exact h

theorem failSequence_holds_active (hw : s.Wf) (h : s.active id = some seq) (reason : String) :
    (s.failSequence id reason).Holds id (.completed (seq.request.fail reason)) := by
  obtain ⟨s', hr⟩ := exists_retire_of_active h (.failed reason)
  rw [failSequence_of_retire hr]
  exact (removedAll_of_retire hw (by exact trivial) hr h).holds_of_mem (List.mem_singleton.2 rfl)

theorem failSequence_holds_pending (hw : s.Wf) (h : s.Holds id (.pending r)) (reason : String) :
    (s.failSequence id reason).Holds id (.completed (r.fail reason)) := by
  rcases failSequence_cases s id reason with hr | ⟨-, p, queue, hp, rfl, -, heq⟩ | ⟨-, hnone, -⟩
  · obtain ⟨seq, hretired⟩ := retire_spec hw hr
    have hactive := hw.active_of_holds h
    simp [hretired.was] at hactive
  · have hsame := hw.holds_unique h (.pending hp)
    rw [Held.pending.injEq] at hsame
    rw [heq, hsame]
    exact List.mem_append_right _ (List.mem_singleton.2 rfl)
  · exact absurd rfl (hnone _ h)

/-- Failing by request id fails whatever is pending or active under it, and nothing else. -/
theorem failByRequestId_eq (hs : s.Sound) (a : RequestId) (reason : String) :
    (s.failByRequestId a reason).2 =
      if s.active a = none ∧ ∀ p ∈ s.pendingQueue, p.seqId ≠ a then s
      else s.failSequence a reason := by
  split
  next h => exact failByRequestId_of_absent hs.wf hs.labelled h.1 h.2 reason
  next h =>
    cases ha : s.active a with
    | some seq => simp [failByRequestId, findSeqId_of_active hs.wf hs.labelled ha]
    | none =>
        simp only [ha, true_and, not_forall, not_not] at h
        obtain ⟨p, hp, rfl⟩ := h
        simp [failByRequestId, findSeqId_of_pending hs.wf hs.labelled hp]

theorem failByRequestId_idle (hs : s.Sound) (h : s.prefillSequences = ∅) (a : RequestId)
    (reason : String) : (s.failByRequestId a reason).2.prefillSequences = ∅ := by
  rw [failByRequestId_eq hs]
  split
  · exact h
  · exact failSequence_idle hs.wf h a reason

theorem failPendingRequests_holds (reason : String) :
    (s.failPendingRequests reason).2.Holds id held ↔
      match held with
      | .pending _ => False
      | .completed r => s.Holds id (.completed r) ∨ ∃ q, s.Holds id (.pending q) ∧
          r = q.fail s!"{reason}（request {q.id}）"
      | _ => s.Holds id held := by
  cases held with
  | pending r => simp [Holds, failPendingRequests]
  | prefill seq => rfl
  | decode seq => rfl
  | completed r =>
      simp only [Holds, failPendingRequests, List.mem_append, List.mem_map, Prod.mk.injEq]
      refine or_congr_right ⟨?_, ?_⟩
      · rintro ⟨p, hp, rfl, rfl⟩
        exact ⟨p.request, hp, rfl⟩
      · rintro ⟨q, hq, rfl⟩
        exact ⟨⟨id, q⟩, hq, rfl, rfl⟩

/-! ## The scheduling pass -/

namespace ScheduledBy

theorem holds_of_completed (h : s.ScheduledBy st) (hw : s.Wf) (hid : s.Holds id (.completed r)) :
    st.scheduler.Holds id (.completed r) :=
  (Moves.evolves hw h.moves).completed.subset hid

/-- A scheduled id is active. -/
theorem not_mem_of_active_none (h : s.ScheduledBy st) (hw : s.Wf)
    (hnone : st.scheduler.active id = none) : id ∉ st.output.seqIds := by
  intro hmem
  obtain ⟨seq, hseq⟩ := h.active_of_mem hw hmem
  simp [hseq] at hnone

/-- A pending request stays, is refused, or starts with the blocks of its prompt. -/
theorem holds_of_pending (h : s.ScheduledBy st) (hw : s.Wf) (hid : s.Holds id (.pending r)) :
    (st.scheduler.Holds id (.pending r) ∧ id ∉ st.output.seqIds) ∨
      (∃ reason, st.scheduler.Holds id (.completed (r.fail reason)) ∧ id ∉ st.output.seqIds) ∨
      ∃ blocks, blocks.length = r.promptBlocks s.config ∧
        startedSequence ⟨id, r⟩ blocks ∈ st.output.prefillSequences := by
  have hw' := h.wf hw
  obtain ⟨held, hheld⟩ := h.moves.holds hw hid
  have hactive := hw'.active_of_holds hheld
  cases held with
  | pending r' =>
      have heq := hw.holds_unique hid (.pending (h.pending _ hheld))
      rw [Held.pending.injEq] at heq
      subst heq
      exact .inl ⟨hheld, h.not_mem_of_active_none hw hactive⟩
  | prefill seq =>
      rcases h.prefill hheld with hold | ⟨hmem, p, hp, rfl, blocks, hblocks, rfl⟩
      · exact absurd (hw.holds_unique hid (.prefill hold)) (by simp)
      · have heq := hw.holds_unique hid (.pending hp)
        rw [Held.pending.injEq] at heq
        subst heq
        refine .inr (.inr ⟨blocks, hblocks, ?_⟩)
        obtain ⟨seq, hseq, hseqId⟩ := List.mem_map.1 hmem
        rcases List.mem_append.1 hseq with hseq | hseq
        · have hout := h.outPrefill seq hseq
          rw [hseqId] at hout
          exact Option.some.inj (hheld.symm.trans hout) ▸ hseq
        · have hout := h.outDecode seq hseq
          rw [hseqId] at hout
          exact absurd (hw'.holds_unique hheld (.decode hout)) (by simp)
  | decode seq =>
      obtain ⟨old, hold, -⟩ := h.decode hheld
      exact absurd (hw.holds_unique hid (.decode hold)) (by simp)
  | completed r' =>
      refine .inr (.inl ?_)
      have hnot := h.not_mem_of_active_none hw hactive
      rcases h.completed _ hheld with hold | ⟨p, hp, reason, heq⟩ | ⟨seq, reason, hseq, -⟩
      · exact absurd (hw.holds_unique hid (.completed hold)) (by simp)
      · rw [Prod.mk.injEq] at heq
        obtain ⟨rfl, rfl⟩ := heq
        have heq := hw.holds_unique hid (.pending hp)
        rw [Held.pending.injEq] at heq
        subst heq
        exact ⟨reason, hheld, hnot⟩
      · simp [hw.active_of_holds hid] at hseq

/-- A decode sequence is left alone, is failed, or is scheduled with the blocks it needs. -/
theorem holds_of_decode (h : s.ScheduledBy st) (hw : s.Wf) (hid : s.Holds id (.decode seq)) :
    (st.scheduler.Holds id (.decode seq) ∧ id ∉ st.output.seqIds) ∨
      (∃ reason, st.scheduler.Holds id (.completed (seq.request.fail reason)) ∧
        id ∉ st.output.seqIds) ∨
      ∃ seq', seq.Grown s.config seq' ∧ seq' ∈ st.output.decodeSequences := by
  have hw' := h.wf hw
  obtain ⟨held, hheld⟩ := h.moves.holds hw hid
  have hactive := hw'.active_of_holds hheld
  cases held with
  | pending r => exact absurd (hw.holds_unique hid (.pending (h.pending _ hheld))) (by simp)
  | prefill seq' =>
      rcases h.prefill hheld with hold | ⟨-, p, hp, rfl, -⟩
      · exact absurd (hw.holds_unique hid (.prefill hold)) (by simp)
      · exact absurd (hw.holds_unique hid (.pending hp)) (by simp)
  | decode seq' =>
      obtain ⟨old, hold, hgrown, hsame⟩ := h.decode hheld
      have heq := hw.holds_unique hid (.decode hold)
      rw [Held.decode.injEq] at heq
      subst heq
      by_cases hmem : id ∈ st.output.seqIds
      · refine .inr (.inr ⟨seq', hgrown hmem, ?_⟩)
        obtain ⟨out, hout, hseqId⟩ := List.mem_map.1 hmem
        rcases List.mem_append.1 hout with hout | hout
        · have hget := h.outPrefill out hout
          rw [hseqId] at hget
          exact absurd (hw'.holds_unique hheld (.prefill hget)) (by simp)
        · have hget := h.outDecode out hout
          rw [hseqId] at hget
          exact Option.some.inj (hheld.symm.trans hget) ▸ hout
      · rw [hsame hmem] at hheld
        exact .inl ⟨hheld, hmem⟩
  | completed r =>
      refine .inr (.inl ?_)
      have hnot := h.not_mem_of_active_none hw hactive
      rcases h.completed _ hheld with hold | ⟨p, hp, reason, heq⟩ | ⟨old, reason, hold, heq⟩
      · exact absurd (hw.holds_unique hid (.completed hold)) (by simp)
      · rw [Prod.mk.injEq] at heq
        obtain ⟨rfl, -⟩ := heq
        exact absurd (hw.holds_unique hid (.pending hp)) (by simp)
      · have hsame := Option.some.inj (hold.symm.trans (hw.active_of_holds hid))
        rw [hsame] at heq
        exact ⟨reason, heq ▸ hheld, hnot⟩

end ScheduledBy

end Scheduler

end PagedServing
