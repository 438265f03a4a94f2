import PagedServing.Scheduler.DecodeLoop

/-! # The budget of a batch

The shared counters of the three loops count the batch: no batch holds more sequences
or more tokens than the configuration allows.
-/

namespace PagedServing

open FixedWidth Relation

/-- The tokens that a batch feeds: whole prompts, and one for each decode sequence. -/
def SchedulerOutput.feeds (o : SchedulerOutput) : Nat :=
  (o.prefillSequences.map fun seq => asU32 seq.request.inputTokens.length).sum
    + o.decodeSequences.length

namespace Scheduler

variable {s : Scheduler} {st st' : ScheduleState}

/-- The counters agree with the batch and stay within the limits. -/
structure Tallied (st : ScheduleState) : Prop where
  numSequences : st.numSequences = st.output.seqIds.length
  batch : st.numSequences ≤ st.scheduler.config.maxBatchSize.toNat
  totalTokens : st.totalTokens = min st.output.feeds u32Max
  budget : st.totalTokens ≤ st.scheduler.config.maxTotalTokens.toNat

theorem tallied_start (s : Scheduler) : Tallied s.passStart :=
  ⟨rfl, Nat.zero_le _, rfl, Nat.zero_le _⟩

theorem saturatingAdd_min (a b : Nat) : saturatingAdd (min a u32Max) b = min (a + b) u32Max := by
  rw [saturatingAdd]
  omega

theorem Tallied.pushDecode (h : Tallied st) (hfits : st.Fits 1) {s' : Scheduler}
    (hconfig : s'.config = st.scheduler.config) (seq : Sequence) :
    Tallied ((st.withScheduler s').pushDecode seq) := by
  refine ⟨?_, ?_, ?_, ?_⟩
  · simp [ScheduleState.pushDecode, ScheduleState.withScheduler, SchedulerOutput.seqIds,
      h.numSequences, Nat.add_assoc]
  · rw [ScheduleState.pushDecode_scheduler, ScheduleState.withScheduler_scheduler, hconfig]
    exact hfits.1
  · refine (congrArg (saturatingAdd · 1) h.totalTokens).trans ((saturatingAdd_min _ _).trans ?_)
    simp [ScheduleState.pushDecode, ScheduleState.withScheduler, SchedulerOutput.feeds,
      Nat.add_assoc]
  · rw [ScheduleState.pushDecode_scheduler, ScheduleState.withScheduler_scheduler, hconfig]
    exact hfits.2

theorem Tallied.pushPrefill (h : Tallied st) {s' : Scheduler}
    (hconfig : s'.config = st.scheduler.config) {seq : Sequence}
    (hfits : st.Fits (asU32 seq.request.inputTokens.length)) :
    Tallied ((st.withScheduler s').pushPrefill seq (asU32 seq.request.inputTokens.length)) := by
  refine ⟨?_, ?_, ?_, ?_⟩
  · simp only [ScheduleState.pushPrefill, ScheduleState.withScheduler, SchedulerOutput.seqIds,
      h.numSequences, List.map_append, List.length_append, List.length_map, List.length_cons,
      List.length_nil]
    omega
  · rw [ScheduleState.pushPrefill_scheduler, ScheduleState.withScheduler_scheduler, hconfig]
    exact hfits.1
  · refine (congrArg (saturatingAdd · _) h.totalTokens).trans ((saturatingAdd_min _ _).trans ?_)
    simp only [ScheduleState.pushPrefill, ScheduleState.withScheduler, SchedulerOutput.feeds,
      List.map_append, List.map_cons, List.map_nil, List.sum_append, List.sum_cons, List.sum_nil]
    omega
  · rw [ScheduleState.pushPrefill_scheduler, ScheduleState.withScheduler_scheduler, hconfig]
    exact hfits.2

theorem Tallied.withScheduler (h : Tallied st) {s' : Scheduler}
    (hconfig : s'.config = st.scheduler.config) : Tallied (st.withScheduler s') := by
  refine ⟨h.numSequences, ?_, h.totalTokens, ?_⟩
  · rw [ScheduleState.withScheduler_scheduler, hconfig]
    exact h.batch
  · rw [ScheduleState.withScheduler_scheduler, hconfig]
    exact h.budget

theorem Turn.tallied (h : Tallied st) (ht : Turn st st') : Tallied st' := by
  cases ht with
  | @drop _ _ reason _ hretire =>
      have ht : (RequestState.failed reason).IsTerminal := trivial
      exact h.withScheduler (Move.retire ht hretire).config_eq
  | keepDecode _ hfits => exact h.pushDecode hfits rfl _
  | growDecode _ hfits => exact h.pushDecode hfits (by rfl) _
  | keepPrefill _ hfits => exact h.pushPrefill rfl hfits
  | reorder => exact h.withScheduler rfl
  | reject => exact h.withScheduler rfl
  | @start p _ _ hfits =>
      have hstarted (blocks : List BlockIdx) :
          st.Fits (asU32 (startedSequence p blocks).request.inputTokens.length) := hfits
      exact h.pushPrefill (by rfl) (hstarted _)

theorem turns_tallied (h : Tallied st) (ht : ReflTransGen Turn st st') : Tallied st' := by
  induction ht with
  | refl => exact h
  | tail _ hturn ih => exact hturn.tallied ih

theorem pass_tallied (hw : s.Wf) : Tallied s.pass :=
  turns_tallied (tallied_start s) (pass_turns hw)

/-- The budget that a batch of `schedule` keeps to. -/
structure WithinBudget (s : Scheduler) (o : SchedulerOutput) : Prop where
  batch : o.seqIds.length ≤ s.config.maxBatchSize.toNat
  tokens : min o.feeds u32Max ≤ s.config.maxTotalTokens.toNat

theorem schedule_withinBudget (hw : s.Wf) : s.WithinBudget s.schedule.1 := by
  have h := pass_tallied hw
  have hconfig : s.pass.scheduler.config = s.config :=
    (Moves.evolves hw (schedule_moves hw)).config
  refine ⟨?_, ?_⟩
  · rw [← hconfig]
    exact h.numSequences ▸ h.batch
  · rw [← hconfig]
    exact h.totalTokens ▸ h.budget

/-- A batch that feeds every sequence something holds no more of them than tokens. -/
theorem WithinBudget.length_le {o : SchedulerOutput} (h : s.WithinBudget o)
    (hfed : ∀ seq ∈ o.prefillSequences, 0 < asU32 seq.request.inputTokens.length) :
    o.seqIds.length ≤ min s.config.maxBatchSize.toNat s.config.maxTotalTokens.toNat := by
  have hcount : o.seqIds.length ≤ o.feeds := by
    have hprompts : o.prefillSequences.length ≤
        (o.prefillSequences.map fun seq => asU32 seq.request.inputTokens.length).sum := by
      have hsum := List.length_le_sum_of_one_le _ (List.forall_mem_map.2 hfed)
      rwa [List.length_map] at hsum
    rw [SchedulerOutput.seqIds, List.length_map, List.length_append, SchedulerOutput.feeds]
    exact Nat.add_le_add_right hprompts _
  have hbatch := h.batch
  have hmax := UInt32.toNat_lt s.config.maxBatchSize
  have htokens := h.tokens
  rw [u32Max] at htokens
  omega

/-! ## What there is to feed -/

/-- The tokens that one batch could feed: every waiting prompt, and a token for each
active sequence. -/
def backlog (s : Scheduler) : Nat :=
  (s.pendingQueue.map fun p => p.request.inputTokens.length).sum + s.numActiveSequences

/-- A prefill of the batch has just been started. -/
theorem started_of_output (hw : s.Wf) (hidle : s.prefillSequences = ∅) {seq : Sequence}
    (h : seq ∈ s.schedule.1.prefillSequences) :
    ∃ p ∈ s.pendingQueue, ∃ blocks, seq = startedSequence p blocks := by
  have hby := pass_spec hw
  rcases hby.prefill (hby.outPrefill seq h) with hold | ⟨-, p, hp, -, blocks, -, heq⟩
  · change s.prefillSequences[seq.seqId]? = some seq at hold
    simp [hidle] at hold
  · exact ⟨p, hp, blocks, heq⟩

theorem prompts_le_backlog (hw : s.Wf) (hidle : s.prefillSequences = ∅) :
    (s.schedule.1.prefillSequences.map fun seq => asU32 seq.request.inputTokens.length).sum ≤
      (s.pendingQueue.map fun p => p.request.inputTokens.length).sum := by
  have hby := pass_spec hw
  set started := s.schedule.1.prefillSequences with hstarted
  have hnodup : (started.map fun seq => (seq.seqId, seq.request.inputTokens.length)).Nodup := by
    have hids : (started.map (·.seqId)).Nodup := by
      have h : (s.pass.output.seqIds).Nodup := hby.nodup
      rw [SchedulerOutput.seqIds, List.map_append] at h
      exact (List.nodup_append.1 h).1
    refine List.Nodup.of_map Prod.fst ?_
    rwa [List.map_map]
  have hsubset : (started.map fun seq => (seq.seqId, seq.request.inputTokens.length)) ⊆
      s.pendingQueue.map fun p => (p.seqId, p.request.inputTokens.length) := by
    intro pair hpair
    obtain ⟨seq, hseq, rfl⟩ := List.mem_map.1 hpair
    obtain ⟨p, hp, blocks, rfl⟩ := started_of_output hw hidle hseq
    exact List.mem_map.2 ⟨p, hp, rfl⟩
  obtain ⟨part, hperm, hsub⟩ := hnodup.subperm hsubset
  have hle := (hsub.map Prod.snd).sum_le_sum fun _ _ => Nat.zero_le _
  rw [(hperm.map Prod.snd).sum_eq, List.map_map, List.map_map] at hle
  exact (List.sum_le_sum fun seq _ => asU32_le _).trans hle

theorem feeds_le_backlog (hw : s.Wf) (hidle : s.prefillSequences = ∅) :
    s.schedule.1.feeds ≤ s.backlog := by
  have hby := pass_spec hw
  refine Nat.add_le_add (prompts_le_backlog hw hidle) ?_
  have hnodup : (s.schedule.1.decodeSequences.map (·.seqId)).Nodup := by
    have h : (s.pass.output.seqIds).Nodup := hby.nodup
    rw [SchedulerOutput.seqIds, List.map_append] at h
    exact (List.nodup_append.1 h).2.1
  have hsubset : s.schedule.1.decodeSequences.map (·.seqId) ⊆ s.decodeSequences.keys := by
    intro id hid
    obtain ⟨seq, hseq, rfl⟩ := List.mem_map.1 hid
    obtain ⟨old, hold, -⟩ := hby.decode (hby.outDecode seq hseq)
    exact IdMap.mem_keys.2 ⟨old, hold⟩
  have hle := (hnodup.subperm hsubset).length_le
  rw [List.length_map, Std.ExtTreeMap.length_keys] at hle
  exact hle.trans (Nat.le_add_left _ _)

end Scheduler

end PagedServing
