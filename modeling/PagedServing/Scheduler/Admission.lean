import PagedServing.Scheduler.Lifecycle

/-! # Admission from an idle pool

With nothing active the scan of the pending queue meets each candidate under fresh
counters and an entirely free pool, so what becomes of it depends on the prompt only.
-/

namespace PagedServing

open FixedWidth Relation

namespace Scheduler

variable {s : Scheduler} {st st' : ScheduleState}

/-- The whole pool is within the watermark and the prompt fills it, so that the block
reserved for the first decode step can never be found. -/
def Stuck (s : Scheduler) (r : Request) : Prop :=
  ¬ s.Oversized r ∧ r.promptBlocks s.config = s.config.maxNumBlocks.toNat ∧
    s.prefillNeedsDecodeReserve (asU32 r.inputTokens.length) = true

/-- One call of `schedule` starts or fails a pending request. -/
def Progress (s : Scheduler) : Prop :=
  ∃ p ∈ s.pendingQueue,
    (∃ seq ∈ s.schedule.1.prefillSequences, seq.seqId = p.seqId) ∨
      ∃ reason, (p.seqId, p.request.fail reason) ∈ s.schedule.2.completedRequests

/-! ## The budget of an idle pool -/

theorem freeList_of_idle (hw : s.Wf) (hidle : s.numActiveSequences = 0) :
    s.kvCache.blockPool.freeList.length = s.config.maxNumBlocks.toNat := by
  have hlen := hw.kvCache.ledger.length
  rw [hw.pageTables_of_idle hidle, IdMap.vals_empty] at hlen
  simpa [hw.poolSize] using hlen

theorem watermark_eq (hw : s.Wf) {q : ℚ} (hq : s.config.memoryThreshold = .finite q)
    (hq0 : 0 ≤ q) :
    s.watermark = F32.floor (.finite (Binary32.nearest
      (Binary32.nearest (s.config.maxNumBlocks.toNat : ℚ) * q))) := by
  have htotal : s.kvCache.getMemoryStats.totalBlocks = s.config.maxNumBlocks.toNat := by
    simp [KVCacheManager.getMemoryStats, BlockPool.totalBlocks, hw.poolSize,
      asU32_of_lt (UInt32.toNat_lt _)]
  rw [watermark, htotal, hq, F32.ofNat,
    F32.mul_finite (Binary32.nearest_nonneg (Nat.cast_nonneg _)) hq0]

/-- The prompt passes the memory budget of an idle pool unless it leaves no block for
the step after it. -/
theorem hasPrefillBudget_of_idle (hw : s.Wf) (hc : s.config.Valid)
    (hidle : s.numActiveSequences = 0) {blocks n : Nat} (hpool : blocks ≤ s.config.maxNumBlocks.toNat)
    (hmark : blocks ≤ s.watermark.toU32) :
    s.hasPrefillBudget blocks n = true ↔
      ¬ (blocks = s.config.maxNumBlocks.toNat ∧ s.prefillNeedsDecodeReserve n = true) := by
  obtain ⟨q, hq, hq0, -⟩ := hc.threshold
  have hlt : s.config.maxNumBlocks.toNat < 2 ^ 32 := UInt32.toNat_lt _
  have hactive : s.activeSequences = [] := by
    rw [numActiveSequences, Nat.add_eq_zero_iff, IdMap.size_eq_zero_iff,
      IdMap.size_eq_zero_iff] at hidle
    simp [activeSequences, hidle.1, hidle.2]
  have hfree : s.kvCache.getMemoryStats.freeBlocks = s.config.maxNumBlocks.toNat := by
    simp [KVCacheManager.getMemoryStats, BlockPool.numFreeBlocks, freeList_of_idle hw hidle,
      asU32_of_lt hlt]
  have hle : F32.le (F32.ofNat blocks) s.watermark = true := by
    have hnonneg : 0 ≤ Binary32.nearest (s.config.maxNumBlocks.toNat : ℚ) * q :=
      mul_nonneg (Binary32.nearest_nonneg (Nat.cast_nonneg _)) hq0.le
    rw [watermark_eq hw hq hq0.le] at hmark ⊢
    exact F32.ofNat_le_floor_of_le_toU32 hnonneg hmark
  have hused : saturatingAdd s.kvCache.getMemoryStats.usedBlocks blocks = blocks := by
    rw [hw.usedBlocks_of_idle hidle, saturatingAdd_of_lt (by omega), Nat.zero_add]
  have hgrowth : s.nextStepGrowthReserve = 0 := by simp [nextStepGrowthReserve, hactive]
  simp only [hasPrefillBudget, hused, hle, hfree, hgrowth, Bool.true_and, decide_eq_true_eq]
  cases s.prefillNeedsDecodeReserve n with
  | false => simp [saturatingAdd]
  | true =>
      have hone : saturatingAdd 0 (true.toNat) = 1 := rfl
      simp only [hone, and_true]
      omega

theorem prefillNeedsDecodeReserve_congr {s' : Scheduler} (h : s'.config = s.config) (n : Nat) :
    s'.prefillNeedsDecodeReserve n = s.prefillNeedsDecodeReserve n := by
  simp [prefillNeedsDecodeReserve, h]

/-! ## The scan under fresh counters -/

/-- Nothing is active and nothing has been put into the batch. -/
structure Fresh (config : EngineConfig) (st : ScheduleState) : Prop where
  wf : st.scheduler.Wf
  idle : st.scheduler.numActiveSequences = 0
  config_eq : st.scheduler.config = config
  sequences : st.numSequences = 0
  tokens : st.totalTokens = 0

theorem Fresh.oversized_iff {config : EngineConfig} (h : Fresh config st) {s : Scheduler}
    (hw : s.Wf) (hs : s.config = config) (r : Request) :
    st.scheduler.Oversized r ↔ s.Oversized r := by
  have hmark : st.scheduler.watermark = s.watermark := by
    simp [watermark, KVCacheManager.getMemoryStats, BlockPool.totalBlocks, h.wf.poolSize,
      hw.poolSize, h.config_eq, hs]
  simp only [Oversized, Request.promptBlocks, hmark, h.config_eq, hs]

theorem Fresh.stuck_iff {config : EngineConfig} (h : Fresh config st) {s : Scheduler} (hw : s.Wf)
    (hs : s.config = config) (r : Request) : st.scheduler.Stuck r ↔ s.Stuck r := by
  simp only [Stuck, h.oversized_iff hw hs, Request.promptBlocks, prefillNeedsDecodeReserve,
    h.config_eq, hs]

theorem Fresh.fits {config : EngineConfig} (h : Fresh config st) (hc : config.Valid) {n : Nat}
    (hn : n ≤ config.maxTotalTokens.toNat) : st.Fits n := by
  have hlt := UInt32.toNat_lt config.maxTotalTokens
  refine ⟨by rw [h.sequences, h.config_eq]; exact hc.maxBatchSize_pos, ?_⟩
  rw [h.tokens, h.config_eq, saturatingAdd_of_lt (by omega), Nat.zero_add]
  exact hn

theorem Fresh.startable_iff {config : EngineConfig} (h : Fresh config st) (hc : config.Valid)
    {r : Request} (hsize : ¬ st.scheduler.Oversized r) :
    Startable st r ↔ ¬ st.scheduler.Stuck r := by
  have hno := hsize
  rw [Oversized, not_or, not_or, Nat.not_lt, Nat.not_lt, Nat.not_lt] at hno
  have hfits := h.fits hc (h.config_eq ▸ hno.1)
  rw [Startable, hasPrefillBudget_of_idle h.wf (h.config_eq ▸ hc) h.idle hno.2.1 hno.2.2, Stuck]
  tauto

/-- The candidate at the head of the queue is put back if it is stuck, and otherwise
started or failed. -/
theorem Fresh.consider {config : EngineConfig} (h : Fresh config st) (hc : config.Valid)
    {p : PendingRequest} {queue : List PendingRequest}
    (hqueue : st.scheduler.pendingQueue = p :: queue) :
    (st.scheduler.Stuck p.request ∧
        considerPending (st.withScheduler { st.scheduler with pendingQueue := queue }) p =
          st.withScheduler { st.scheduler with pendingQueue := queue ++ [p] }) ∨
      (¬ st.scheduler.Stuck p.request ∧
        ((∃ seq ∈ (considerPending (st.withScheduler
            { st.scheduler with pendingQueue := queue }) p).output.prefillSequences,
            seq.seqId = p.seqId) ∨
          ∃ reason, (p.seqId, p.request.fail reason) ∈ (considerPending (st.withScheduler
            { st.scheduler with pendingQueue := queue }) p).scheduler.completedRequests)) := by
  have hnone := h.wf.pageTable_none (h.wf.active_none_of_pending (p := p) (by simp [hqueue]))
  rcases considerPending_cases
      (st.withScheduler { st.scheduler with pendingQueue := queue }) hnone
      h.wf.blockSize with
    ⟨hdefer, heq⟩ | ⟨hsize, reason, heq⟩ | ⟨hsize, hstart, kvCache, -, heq⟩
  · rw [heq]
    refine .inl ⟨?_, rfl⟩
    have hbatch : st.numSequences < st.scheduler.config.maxBatchSize.toNat := by
      rw [h.sequences, h.config_eq]
      exact hc.maxBatchSize_pos
    obtain ⟨hn, hrest⟩ := hdefer hbatch
    have hfits : st.Fits (asU32 p.request.inputTokens.length) := h.fits hc (h.config_eq ▸ hn)
    obtain ⟨hsize, hfull⟩ := hrest hfits
    by_contra hstuck
    -- the pool has every block that the prompt asks for
    have hpool : p.request.promptBlocks st.scheduler.config ≤
        st.scheduler.config.maxNumBlocks.toNat :=
      Nat.le_of_not_lt fun hlt => hsize (.inr (.inl hlt))
    have hlt := hfull ((h.startable_iff hc hsize).2 hstuck)
    rw [← freeList_of_idle h.wf h.idle] at hpool
    exact absurd hlt (Nat.not_lt.2 hpool)
  · rw [heq]
    refine .inr ⟨fun hstuck => hstuck.1 hsize, .inr ⟨reason, ?_⟩⟩
    simp [rejectPending]
  · rw [heq]
    refine .inr ⟨(h.startable_iff hc hsize).1 hstart, .inl ⟨startedSequence p
      (st.scheduler.kvCache.blockPool.freeList.take
        (p.request.promptBlocks st.scheduler.config)), ?_, rfl⟩⟩
    exact List.mem_append_right _ (List.mem_singleton_self _)

theorem Fresh.rotate {config : EngineConfig} (h : Fresh config st) {queue : List PendingRequest}
    (hq : st.scheduler.pendingQueue.Perm queue) :
    Fresh config (st.withScheduler { st.scheduler with pendingQueue := queue }) :=
  ⟨(Move.reorder hq).wf h.wf, h.idle, h.config_eq, h.sequences, h.tokens⟩

/-- What a turn has put into the batch or failed stays there. -/
theorem Turn.grows (h : Turn st st') :
    st.output.prefillSequences ⊆ st'.output.prefillSequences ∧
      st.scheduler.completedRequests ⊆ st'.scheduler.completedRequests := by
  cases h with
  | drop _ h =>
      exact ⟨List.Subset.refl _, (Move.completed_prefix (.retire (by exact trivial) h)).subset⟩
  | keepDecode => exact ⟨List.Subset.refl _, List.Subset.refl _⟩
  | growDecode => exact ⟨List.Subset.refl _, List.Subset.refl _⟩
  | keepPrefill => exact ⟨List.subset_append_left _ _, List.Subset.refl _⟩
  | reorder => exact ⟨List.Subset.refl _, List.Subset.refl _⟩
  | reject => exact ⟨List.Subset.refl _, List.subset_append_left _ _⟩
  | start => exact ⟨List.subset_append_left _ _, List.Subset.refl _⟩

theorem turns_grow (h : ReflTransGen Turn st st') :
    st.output.prefillSequences ⊆ st'.output.prefillSequences ∧
      st.scheduler.completedRequests ⊆ st'.scheduler.completedRequests := by
  induction h with
  | refl => exact ⟨List.Subset.refl _, List.Subset.refl _⟩
  | tail _ ht ih =>
    exact ⟨List.Subset.trans ih.1 ht.grows.1, List.Subset.trans ih.2 ht.grows.2⟩

/-- Stuck candidates only rotate. -/
theorem Fresh.scan_stuck {config : EngineConfig} (h : Fresh config st) (hc : config.Valid)
    (hstuck : ∀ p ∈ st.scheduler.pendingQueue, st.scheduler.Stuck p.request) (n : Nat) :
    ∃ queue, (scanPending n st) =
      st.withScheduler { st.scheduler with pendingQueue := queue } := by
  induction n generalizing st with
  | zero => exact ⟨st.scheduler.pendingQueue, rfl⟩
  | succ n ih =>
    cases hqueue : st.scheduler.pendingQueue with
    | nil => exact ⟨st.scheduler.pendingQueue, by simp only [scanPending, hqueue]; rw [← hqueue]; rfl⟩
    | cons p queue =>
        rw [scanPending, hqueue]
        dsimp only
        rcases h.consider hc hqueue with ⟨-, heq⟩ | ⟨hno, -⟩
        · have hperm : st.scheduler.pendingQueue.Perm (queue ++ [p]) :=
            hqueue ▸ (List.perm_append_singleton p queue).symm
          rw [heq]
          exact ih (h.rotate hperm) fun q hq => hstuck q (hperm.mem_iff.2 hq)
        · exact absurd (hstuck p (by simp [hqueue])) hno

/-- The scan gets to the first candidate that is not stuck. -/
theorem Fresh.scan_progress {config : EngineConfig} (h : Fresh config st) (hc : config.Valid)
    {l rest : List PendingRequest} (hqueue : st.scheduler.pendingQueue = l ++ rest)
    (hex : ∃ p ∈ l, ¬ st.scheduler.Stuck p.request) :
    ∃ p ∈ l, (∃ seq ∈ (scanPending l.length st).output.prefillSequences, seq.seqId = p.seqId) ∨
      ∃ reason, (p.seqId, p.request.fail reason) ∈
        (scanPending l.length st).scheduler.completedRequests := by
  induction l generalizing st rest with
  | nil => simp at hex
  | cons p l ih =>
    have hcons : st.scheduler.pendingQueue = p :: (l ++ rest) := hqueue
    have hturn := considerPending_turn h.wf hcons
    rw [List.length_cons, scanPending, hcons]
    dsimp only
    rcases h.consider hc hcons with ⟨hstuck, heq⟩ | ⟨hno, hdone⟩
    · have hperm : st.scheduler.pendingQueue.Perm (l ++ rest ++ [p]) :=
        hqueue ▸ (List.perm_append_singleton p (l ++ rest)).symm
      rw [heq]
      have hex' : ∃ q ∈ l, ¬ st.scheduler.Stuck q.request := by
        obtain ⟨q, hq, hno⟩ := hex
        rcases List.mem_cons.1 hq with rfl | hq
        · exact absurd hstuck hno
        · exact ⟨q, hq, hno⟩
      obtain ⟨q, hq, hres⟩ := ih (h.rotate hperm) (List.append_assoc l rest [p]) hex'
      exact ⟨q, List.mem_cons_of_mem _ hq, hres⟩
    · have hgrow := turns_grow (scanPending_turns l.length (hturn.wf h.wf))
      refine ⟨p, List.mem_cons_self, hdone.imp ?_ ?_⟩
      · rintro ⟨seq, hseq, hid⟩
        exact ⟨seq, hgrow.1 hseq, hid⟩
      · rintro ⟨reason, hmem⟩
        exact ⟨reason, hgrow.2 hmem⟩

/-! ## The pass from an idle state -/

theorem sortedSeqIds_empty : sortedSeqIds ∅ = [] := by
  simpa using (sortedSeqIds_perm ∅).length_eq

/-- Idle means that only the scan of the queue does anything, and that it is open. -/
theorem pass_of_idle (hw : s.Wf) (hc : s.config.Valid) (hidle : s.numActiveSequences = 0) :
    Fresh s.config (s.passStart.withScheduler { s.passStart.scheduler with
        pendingQueue := sortPending s.pendingQueue }) ∧
      s.pass = scanPending (sortPending s.pendingQueue).length
        (s.passStart.withScheduler { s.passStart.scheduler with
          pendingQueue := sortPending s.pendingQueue }) := by
  have hstart : Fresh s.config s.passStart := ⟨wf_passStart hw, hidle, rfl, rfl, rfl⟩
  have hempty := hidle
  rw [numActiveSequences, Nat.add_eq_zero_iff, IdMap.size_eq_zero_iff,
    IdMap.size_eq_zero_iff] at hempty
  have hdecode : s.decodePass = s.passStart := by
    have hids : s.passStart.scheduler.decodeSeqIds = [] := by
      simp [decodeSeqIds, passStart, updateMemoryPressure, hempty.2, sortedSeqIds_empty]
    rw [decodePass, hids, scheduleDecode]
  have hprefill : s.prefillPass = s.passStart := by
    have hids : s.passStart.scheduler.prefillCandidates = [] := by
      simp [prefillCandidates, passStart, updateMemoryPressure, hempty.1, sortedSeqIds_empty]
    rw [prefillPass, hdecode, hids, schedulePrefill]
  refine ⟨hstart.rotate (sortPending_perm _).symm, ?_⟩
  obtain ⟨q, hq, hq0, -⟩ := hc.threshold
  have hpressure : s.passStart.scheduler.underMemoryPressure = false := by
    have hused := hw.usedBlocks_of_idle hidle
    have hutil : s.kvCache.getMemoryStats.utilization = .finite 0 := by
      have hpos := Binary32.nearest_natCast_pos hc.maxNumBlocks_pos
      have htotal : s.kvCache.getMemoryStats.totalBlocks = s.config.maxNumBlocks.toNat := by
        simp [KVCacheManager.getMemoryStats, BlockPool.totalBlocks, hw.poolSize,
          asU32_of_lt (UInt32.toNat_lt _)]
      rw [MemoryStats.utilization, hused, htotal]
      simp [F32.ofNat, F32.div, hpos.ne', F32.zero, F32.isNegative, hpos.not_gt]
    simp [passStart, updateMemoryPressure, hutil, hq, F32.le, hq0]
  rw [pass, hprefill, schedulePending, hpressure]
  rfl

theorem passStart_stuck_iff (hw : s.Wf) (hidle : s.numActiveSequences = 0) (r : Request) :
    s.passStart.scheduler.Stuck r ↔ s.Stuck r :=
  have hfresh : Fresh s.config s.passStart := ⟨wf_passStart hw, hidle, rfl, rfl, rfl⟩
  hfresh.stuck_iff hw rfl r

/-- An idle scheduler makes progress exactly when some pending request is not stuck. -/
theorem Wf.progress_iff (hw : s.Wf) (hc : s.config.Valid) (hidle : s.numActiveSequences = 0) :
    s.Progress ↔ ∃ p ∈ s.pendingQueue, ¬ s.Stuck p.request := by
  obtain ⟨hfresh, hpass⟩ := pass_of_idle hw hc hidle
  have hperm := sortPending_perm s.pendingQueue
  rw [Progress, schedule_eq, hpass]
  constructor
  · rintro ⟨p, hp, hdone⟩
    by_contra hall
    push Not at hall
    obtain ⟨queue, heq⟩ := hfresh.scan_stuck hc
      (fun q hq => (passStart_stuck_iff hw hidle _).2 (hall q (hperm.mem_iff.1 hq)))
      (sortPending s.pendingQueue).length
    rw [heq] at hdone
    rcases hdone with ⟨seq, hseq, -⟩ | ⟨reason, hmem⟩
    · simp [passStart] at hseq
    · -- a pending id is not in the completed buffer
      have hnot := (hw.nodup_parts.2.1 p.seqId (List.mem_map_of_mem hp)).2.2
      exact hnot (List.mem_map_of_mem (f := Prod.fst) hmem)
  · rintro ⟨p, hp, hno⟩
    obtain ⟨q, hq, hres⟩ := hfresh.scan_progress hc (List.append_nil _).symm
      ⟨p, hperm.mem_iff.2 hp, mt (passStart_stuck_iff hw hidle _).1 hno⟩
    exact ⟨q, hperm.mem_iff.1 hq, hres⟩

/-- Refused by the budget of an idle pool although below the watermark: the same thing. -/
theorem Wf.refused_iff (hw : s.Wf) (hc : s.config.Valid) (hidle : s.numActiveSequences = 0)
    {r : Request} (hsize : ¬ s.Oversized r) :
    s.hasPrefillBudget (r.promptBlocks s.config) (asU32 r.inputTokens.length) = false ↔
      s.Stuck r := by
  have hno := hsize
  rw [Oversized, not_or, not_or, Nat.not_lt, Nat.not_lt, Nat.not_lt] at hno
  rw [← Bool.not_eq_true, hasPrefillBudget_of_idle hw hc hidle hno.2.1 hno.2.2, not_not, Stuck]
  exact ⟨fun h => ⟨hsize, h⟩, fun h => h.2⟩

end Scheduler

namespace History

theorem run_config_valid {config : EngineConfig} (hvalid : config.validate = .ok ())
    (ops : List SchedulerOp) : ((new config).run ops).scheduler.config.Valid := by
  rw [config_run (inv_new config) ops]
  exact EngineConfig.valid_of_validate hvalid

/-- In a reachable idle state `schedule` starts or fails a pending request if and only if
one of them is not stuck; and the stuck prompts are exactly those below the watermark that
the budget check refuses although every block is free. -/
theorem progress_iff_of_run (config : EngineConfig) (ops : List SchedulerOp)
    (hvalid : config.validate = .ok ())
    (hidle : ((new config).run ops).scheduler.numActiveSequences = 0) :
    (((new config).run ops).scheduler.Progress ↔
        ∃ p ∈ ((new config).run ops).scheduler.pendingQueue,
          ¬ ((new config).run ops).scheduler.Stuck p.request) ∧
      ∀ r : Request, ¬ ((new config).run ops).scheduler.Oversized r →
        (((new config).run ops).scheduler.hasPrefillBudget
            (r.promptBlocks ((new config).run ops).scheduler.config)
            (asU32 r.inputTokens.length) = false ↔
          ((new config).run ops).scheduler.Stuck r) := by
  have hi := (inv_new config).run ops
  have hc := run_config_valid hvalid ops
  exact ⟨hi.wf.progress_iff hc hidle, fun r hsize => hi.wf.refused_iff hc hidle hsize⟩

/-- One block of sixteen tokens, all of it within the watermark. -/
def tightConfig : EngineConfig := { maxNumBlocks := 1, memoryThreshold := .finite 1 }

/-- A prompt of fifteen tokens fills the pool of `tightConfig`. -/
def tightOps : List SchedulerOp := [.addRequest 1 (List.replicate 15 5) {}]

theorem progress_iff_of_run_tight :
    tightConfig.validate = .ok () ∧
      ((new tightConfig).run tightOps).scheduler.numActiveSequences = 0 ∧
      (((new tightConfig).run tightOps).scheduler.Progress ↔
        ∃ p ∈ ((new tightConfig).run tightOps).scheduler.pendingQueue,
          ¬ ((new tightConfig).run tightOps).scheduler.Stuck p.request) :=
  ⟨by decide +kernel, by decide +kernel,
    (progress_iff_of_run tightConfig tightOps (by decide +kernel) (by decide +kernel)).1⟩

/-- The fifteen-token prompt stays pending although nothing else is in the pool. -/
theorem no_progress_tight :
    ¬ ∀ (config : EngineConfig) (ops : List SchedulerOp), config.validate = .ok () →
      ((new config).run ops).scheduler.numActiveSequences = 0 →
      ((new config).run ops).scheduler.pendingQueue ≠ [] →
      ((new config).run ops).scheduler.Progress := by
  intro h
  obtain ⟨p, -, hdone⟩ := h tightConfig tightOps (by decide +kernel) (by decide +kernel)
    (by decide +kernel)
  have hprefill :
      ((new tightConfig).run tightOps).scheduler.schedule.1.prefillSequences = [] := by
    decide +kernel
  have hcompleted :
      ((new tightConfig).run tightOps).scheduler.schedule.2.completedRequests = [] := by
    decide +kernel
  simp [hprefill, hcompleted] at hdone

end History

end PagedServing
