import PagedServing.Scheduler.Updates

/-! # Requests by their id

The engine numbers requests as the scheduler numbers sequences, so under the engine
a request id finds the one place that holds it.
-/

namespace PagedServing

open Relation

namespace Scheduler

variable {s s' : Scheduler} {id : SeqId} {seq : Sequence}

/-- Every request carries the id of its sequence. -/
structure Labelled (s : Scheduler) : Prop where
  pending : ∀ p ∈ s.pendingQueue, p.request.id = p.seqId
  prefill : ∀ {id : Nat} {seq : Sequence}, s.prefillSequences[id]? = some seq →
    seq.request.id = id
  decode : ∀ {id : Nat} {seq : Sequence}, s.decodeSequences[id]? = some seq →
    seq.request.id = id
  completed : ∀ r ∈ s.completedRequests, r.2.id = r.1

theorem Labelled.active (h : s.Labelled) (hseq : s.active id = some seq) :
    seq.request.id = id := by
  rcases Option.or_eq_some_iff.1 hseq with hseq | ⟨-, hseq⟩
  · exact h.prefill hseq
  · exact h.decode hseq

private theorem label_insert {m : IdMap Sequence} {k : Nat} {new : Sequence}
    (hm : ∀ {id : Nat} {seq : Sequence}, m[id]? = some seq → seq.request.id = id)
    (hnew : new.request.id = k) {id : Nat} {seq : Sequence}
    (h : (m.insert k new)[id]? = some seq) : seq.request.id = id := by
  rw [IdMap.get_insert] at h
  split at h
  next ha =>
    rw [← Option.some.inj h, hnew, ha]
  next => exact hm h

private theorem label_erase {m : IdMap Sequence} {k : Nat}
    (hm : ∀ {id : Nat} {seq : Sequence}, m[id]? = some seq → seq.request.id = id)
    {id : Nat} {seq : Sequence} (h : (m.erase k)[id]? = some seq) : seq.request.id = id := by
  rw [IdMap.get_erase] at h
  split at h
  next => simp at h
  next => exact hm h

private theorem label_push {l : List (SeqId × Request)} {x : SeqId × Request}
    (hl : ∀ r ∈ l, r.2.id = r.1) (hx : x.2.id = x.1) : ∀ r ∈ l ++ [x], r.2.id = r.1 := by
  intro r hr
  rcases List.mem_append.1 hr with hr | hr
  · exact hl r hr
  · rw [List.mem_singleton.1 hr, hx]

theorem Move.labelled (hl : s.Labelled) (h : Move s s') : s'.Labelled := by
  cases h with
  | pressure => exact ⟨hl.pending, hl.prefill, hl.decode, hl.completed⟩
  | reorder h => exact ⟨fun p hp => hl.pending p (h.mem_iff.2 hp), hl.prefill, hl.decode, hl.completed⟩
  | @reject p queue reason h =>
      exact ⟨fun q hq => hl.pending q (h.mem_iff.2 (List.mem_cons_of_mem _ hq)), hl.prefill,
        hl.decode, label_push hl.completed (hl.pending p (h.mem_iff.2 (by simp)))⟩
  | @start p queue kvCache n h hkv =>
      exact ⟨fun q hq => hl.pending q (h.mem_iff.2 (List.mem_cons_of_mem _ hq)),
        label_insert hl.prefill (hl.pending p (h.mem_iff.2 (by simp))), hl.decode, hl.completed⟩
  | @toDecode id seq h =>
      have hid : seq.request.id = id := hl.prefill h
      exact ⟨hl.pending, label_erase hl.prefill,
        fun h' => label_insert hl.decode (by exact hid) h', hl.completed⟩
  | @grow id seq _ _ h _ =>
      have hid : seq.request.id = id := hl.decode h
      exact ⟨hl.pending, hl.prefill, fun h' => label_insert hl.decode (by exact hid) h',
        hl.completed⟩
  | editPrefill h he =>
      exact ⟨hl.pending, label_insert hl.prefill (he.requestId.trans (hl.prefill h)), hl.decode,
        hl.completed⟩
  | editDecode h he =>
      exact ⟨hl.pending, hl.prefill, label_insert hl.decode (he.requestId.trans (hl.decode h)),
        hl.completed⟩
  | retire _ h =>
      rcases retire_cases h with ⟨seq, hseq, rfl⟩ | ⟨-, seq, hseq, rfl⟩
      · exact ⟨hl.pending, hl.prefill, label_erase hl.decode,
          label_push hl.completed (hl.decode hseq)⟩
      · exact ⟨hl.pending, label_erase hl.prefill, hl.decode,
          label_push hl.completed (hl.prefill hseq)⟩

theorem Moves.labelled (hl : s.Labelled) (h : Moves s s') : s'.Labelled := by
  induction h with
  | refl => exact hl
  | tail _ hm ih => exact hm.labelled ih

/-! ## Searches -/

private theorem find?_of_unique {β : Type} {l : List β} {p : β → Bool} {x : β} (hx : x ∈ l)
    (hp : p x = true) (huniq : ∀ y ∈ l, p y = true → y = x) : l.find? p = some x := by
  cases h : l.find? p with
  | none => simp [List.find?_eq_none.1 h x hx] at hp
  | some y => rw [huniq y (List.mem_of_find?_eq_some h) (List.find?_some h)]

theorem mem_activeSequences :
    seq ∈ s.activeSequences ↔ ∃ id : Nat,
      s.prefillSequences[id]? = some seq ∨ s.decodeSequences[id]? = some seq := by
  rw [activeSequences, List.mem_append, IdMap.mem_vals, IdMap.mem_vals, exists_or]

theorem Wf.active_of_mem (hw : s.Wf) (h : seq ∈ s.activeSequences) :
    s.active seq.seqId = some seq := by
  obtain ⟨id, h | h⟩ := mem_activeSequences.1 h
  · rw [(hw.prefill_tag h).1]
    exact active_of_prefill h
  · rw [(hw.decode_tag h).1]
    exact hw.active_of_decode h

theorem mem_activeSequences_of_active (h : s.active id = some seq) : seq ∈ s.activeSequences := by
  rw [mem_activeSequences]
  rcases Option.or_eq_some_iff.1 h with h | ⟨-, h⟩
  · exact ⟨id, .inl h⟩
  · exact ⟨id, .inr h⟩

theorem Wf.seqId_of_active (hw : s.Wf) (h : s.active id = some seq) : seq.seqId = id := by
  rcases Option.or_eq_some_iff.1 h with h | ⟨-, h⟩
  · exact (hw.prefill_tag h).1
  · exact (hw.decode_tag h).1

theorem find?_active_eq_none (hw : s.Wf) (hl : s.Labelled) (h : s.active id = none) :
    (s.activeSequences.find? fun seq => seq.request.id = id) = none := by
  rw [List.find?_eq_none]
  intro seq hseq heq
  have hactive := hw.active_of_mem hseq
  have hid := hl.active hactive
  rw [decide_eq_true_eq] at heq
  rw [← hid, heq, h] at hactive
  simp at hactive

theorem find?_active (hw : s.Wf) (hl : s.Labelled) (h : s.active id = some seq) :
    (s.activeSequences.find? fun seq => seq.request.id = id) = some seq := by
  refine find?_of_unique (mem_activeSequences_of_active h) (by simp [hl.active h]) ?_
  intro y hy heq
  have hactive := hw.active_of_mem hy
  have hid := hl.active hactive
  rw [decide_eq_true_eq] at heq
  rw [← hid, heq, h] at hactive
  exact (Option.some.inj hactive).symm

theorem find?_pending (hw : s.Wf) (hl : s.Labelled) {p : PendingRequest}
    (hp : p ∈ s.pendingQueue) :
    (s.pendingQueue.find? fun q => q.request.id = p.seqId) = some p := by
  refine find?_of_unique hp (by simp [hl.pending p hp]) ?_
  intro q hq heq
  rw [decide_eq_true_eq, hl.pending q hq] at heq
  exact List.inj_on_of_nodup_map hw.nodup_parts.1 hq hp heq

theorem find?_pending_eq_none (hl : s.Labelled) (h : ∀ p ∈ s.pendingQueue, p.seqId ≠ id) :
    (s.pendingQueue.find? fun q => q.request.id = id) = none := by
  rw [List.find?_eq_none]
  intro q hq heq
  rw [decide_eq_true_eq, hl.pending q hq] at heq
  exact h q hq heq

theorem not_pending_of_active (hw : s.Wf) (h : s.active id = some seq) :
    ∀ p ∈ s.pendingQueue, p.seqId ≠ id := by
  rintro p hp rfl
  simp [hw.active_none_of_pending hp] at h

theorem not_pending_of_completed (hw : s.Wf) {r : Request} (h : (id, r) ∈ s.completedRequests) :
    ∀ p ∈ s.pendingQueue, p.seqId ≠ id := by
  rintro p hp rfl
  exact (hw.nodup_parts.2.1 _ (List.mem_map_of_mem hp)).2.2 (List.mem_map.2 ⟨_, h, rfl⟩)

/-- A request id is found in the one place that holds it. -/
theorem getRequestById_of_pending (hw : s.Wf) (hl : s.Labelled) {p : PendingRequest}
    (hp : p ∈ s.pendingQueue) : s.getRequestById p.seqId = some p.request := by
  simp [getRequestById, find?_pending hw hl hp]

theorem getRequestById_of_active (hw : s.Wf) (hl : s.Labelled) (h : s.active id = some seq) :
    s.getRequestById id = some seq.request := by
  simp [getRequestById, find?_pending_eq_none hl (not_pending_of_active hw h),
    find?_active hw hl h]

theorem getRequestById_of_completed (hw : s.Wf) (hl : s.Labelled) {r : Request}
    (h : (id, r) ∈ s.completedRequests) : s.getRequestById id = some r := by
  have hfind : (s.completedRequests.find? fun r => r.2.id = id) = some (id, r) := by
    refine find?_of_unique h (by simpa using hl.completed _ h) ?_
    intro q hq heq
    rw [decide_eq_true_eq, hl.completed q hq] at heq
    exact List.inj_on_of_nodup_map hw.completed_nodup hq h heq
  simp [getRequestById, find?_pending_eq_none hl (not_pending_of_completed hw h),
    find?_active_eq_none hw hl (hw.active_none_of_completed h), hfind]

theorem findSeqId_of_active (hw : s.Wf) (hl : s.Labelled) (h : s.active id = some seq) :
    s.findSeqId id = some id := by
  simp [findSeqId, find?_pending_eq_none hl (not_pending_of_active hw h), find?_active hw hl h,
    hw.seqId_of_active h]

theorem findSeqId_of_pending (hw : s.Wf) (hl : s.Labelled) {p : PendingRequest}
    (hp : p ∈ s.pendingQueue) : s.findSeqId p.seqId = some p.seqId := by
  simp [findSeqId, find?_pending hw hl hp]

theorem findSeqId_eq_none (hw : s.Wf) (hl : s.Labelled) (h : s.active id = none)
    (hp : ∀ p ∈ s.pendingQueue, p.seqId ≠ id) : s.findSeqId id = none := by
  simp [findSeqId, find?_pending_eq_none hl hp, find?_active_eq_none hw hl h]

/-! ## Terminations by request id -/

theorem failByRequestId_removed (hw : s.Wf) (hl : s.Labelled) (h : s.active id = some seq)
    (reason : String) :
    s.RemovedAll [(id, seq.request.fail reason)] (s.failByRequestId id reason).2 := by
  obtain ⟨s', hr⟩ := exists_retire_of_active h (.failed reason)
  simp only [failByRequestId, findSeqId_of_active hw hl h, failSequence_of_retire hr]
  exact removedAll_of_retire hw (by exact trivial) hr h

theorem failByRequestId_of_absent (hw : s.Wf) (hl : s.Labelled) (h : s.active id = none)
    (hp : ∀ p ∈ s.pendingQueue, p.seqId ≠ id) (reason : String) :
    (s.failByRequestId id reason).2 = s := by
  simp [failByRequestId, findSeqId_eq_none hw hl h hp]

theorem completeByStopSequence_of_absent (hw : s.Wf) (hl : s.Labelled)
    (h : s.active id = none) (keepTokens : Nat) :
    (s.completeByStopSequence id keepTokens).2 = s := by
  simp [completeByStopSequence, find?_active_eq_none hw hl h]

theorem truncateActive_active (h : s.active id = some seq) (keepTokens : Nat) :
    (∀ a : Nat, (s.truncateActive id keepTokens).active a =
        if id = a then some (seq.stopAt keepTokens) else s.active a) ∧
      (∀ a : Nat, id ≠ a → (s.truncateActive id keepTokens).prefillSequences[a]? =
        s.prefillSequences[a]? ∧ (s.truncateActive id keepTokens).decodeSequences[a]? =
          s.decodeSequences[a]?) ∧
      (s.truncateActive id keepTokens).pendingQueue = s.pendingQueue ∧
      (s.truncateActive id keepTokens).completedRequests = s.completedRequests := by
  rcases Option.or_eq_some_iff.1 h with hp | ⟨hnone, hd⟩
  · simp only [truncateActive, hp]
    refine ⟨fun a => ?_, fun a ha => ⟨IdMap.get_insert_ne ha, trivial⟩, trivial, trivial⟩
    rcases eq_or_ne id a with rfl | hne
    · simp [active]
    · simp [active, hne, IdMap.get_insert_ne hne]
  · simp only [truncateActive, hnone, hd]
    refine ⟨fun a => ?_, fun a ha => ⟨trivial, IdMap.get_insert_ne ha⟩, trivial, trivial⟩
    rcases eq_or_ne id a with rfl | hne
    · simp [active, hnone]
    · simp [active, hne, IdMap.get_insert_ne hne]

theorem completeByStopSequence_removed (hw : s.Wf) (hl : s.Labelled)
    (h : s.active id = some seq) (keepTokens : Nat) :
    s.RemovedAll [(id, { (seq.stopAt keepTokens).request with state := .completed })]
      (s.completeByStopSequence id keepTokens).2 := by
  have hmoves := truncateActive_moves s id keepTokens
  have hw' := (Moves.evolves hw hmoves).wf
  obtain ⟨hactive, hothers, hpending, hcompleted⟩ := truncateActive_active h keepTokens
  obtain ⟨s', hr⟩ := exists_retire_of_active ((hactive id).trans (if_pos rfl)) .completed
  have hremoved := removedAll_of_retire hw' (by exact trivial) hr
    ((hactive id).trans (if_pos rfl))
  simp only [completeByStopSequence, find?_active hw hl h, hw.seqId_of_active h, completeSequence,
    hr, Option.getD_some]
  refine ⟨hmoves.trans hremoved.moves, ?_, ?_, hremoved.pending.trans hpending, ?_⟩
  · intro a
    rw [hremoved.prefill]
    split
    next => rfl
    next hne => exact (hothers a fun h => hne (by simp [h])).1
  · intro a
    rw [hremoved.decode]
    split
    next => rfl
    next hne => exact (hothers a fun h => hne (by simp [h])).2
  · rw [hremoved.completed, hcompleted]

/-- What the engine relies on: places, and one numbering of requests and sequences. -/
structure Sound (s : Scheduler) : Prop where
  wf : s.Wf
  labelled : s.Labelled

theorem Sound.moves (h : s.Sound) (hm : Moves s s') : s'.Sound :=
  ⟨(Moves.evolves h.wf hm).wf, hm.labelled h.labelled⟩

end Scheduler

end PagedServing
