import PagedServing.Scheduler.Admission
import PagedServing.Scheduler.Growth
import PagedServing.Scheduler.Victims

/-! # The reserve for decode growth

A prompt is started only when enough blocks stay free for every active sequence that
will need one after its next token. Whatever comes before the next pass keeps this
reserve, so the decode loop of that pass finds a block whenever it asks for one.
-/

namespace PagedServing

open FixedWidth

namespace Scheduler

variable {s s' : Scheduler} {st st' : ScheduleState} {id : SeqId}

/-! ## The start of a prompt -/

theorem Wf.length_freeList_le (hw : s.Wf) :
    s.kvCache.blockPool.freeList.length ≤ s.config.maxNumBlocks.toNat := by
  have hlen := hw.kvCache.ledger.length
  have hpool := hw.poolSize
  omega

theorem Wf.freeBlocks_eq (hw : s.Wf) :
    s.kvCache.getMemoryStats.freeBlocks = s.kvCache.blockPool.freeList.length :=
  asU32_of_lt (hw.length_freeList_le.trans_lt (UInt32.toNat_lt _))

theorem Wf.usedBlocks_add (hw : s.Wf) : s.kvCache.getMemoryStats.usedBlocks +
    s.kvCache.blockPool.freeList.length = s.config.maxNumBlocks.toNat := by
  have hfree : s.kvCache.blockPool.numFreeBlocks = s.kvCache.blockPool.freeList.length :=
    hw.freeBlocks_eq
  have htotal : s.kvCache.blockPool.totalBlocks = s.config.maxNumBlocks.toNat := by
    rw [BlockPool.totalBlocks, hw.poolSize, asU32_of_lt (UInt32.toNat_lt _)]
  have hused : s.kvCache.getMemoryStats.usedBlocks =
      s.kvCache.blockPool.totalBlocks - s.kvCache.blockPool.numFreeBlocks := rfl
  rw [hused, hfree, htotal]
  exact Nat.sub_add_cancel hw.length_freeList_le

theorem length_growthIds_le_active (s : Scheduler) (n : SeqId → Nat) :
    (s.growthIds n).length ≤ s.numActiveSequences := by
  rw [growthIds, List.length_map, numActiveSequences, ← IdMap.length_vals, ← IdMap.length_vals,
    ← List.length_append]
  exact List.length_filter_le _ _

/-- A prompt passes the budget only if it and all active sequences can grow after it. -/
theorem of_hasPrefillBudget (hw : s.Wf) {blocks tokens : Nat}
    (hcount : s.numActiveSequences < u32Max)
    (hpool : blocks ≤ s.kvCache.blockPool.freeList.length)
    (h : s.hasPrefillBudget blocks tokens = true) :
    F32.le (F32.ofNat (s.kvCache.getMemoryStats.usedBlocks + blocks)) s.watermark = true ∧
      (s.growthIds fun _ => 1).length + (s.prefillNeedsDecodeReserve tokens).toNat ≤
        s.kvCache.blockPool.freeList.length - blocks := by
  have hgrowth := s.length_growthIds_le_active fun _ => 1
  have hneeds := (s.prefillNeedsDecodeReserve tokens).toNat_le
  have hused : saturatingAdd s.kvCache.getMemoryStats.usedBlocks blocks =
      s.kvCache.getMemoryStats.usedBlocks + blocks := by
    have hsum := hw.usedBlocks_add
    have hlt := UInt32.toNat_lt s.config.maxNumBlocks
    exact saturatingAdd_of_lt (by omega)
  have hreserve : saturatingAdd s.nextStepGrowthReserve
      (s.prefillNeedsDecodeReserve tokens).toNat =
        (s.growthIds fun _ => 1).length + (s.prefillNeedsDecodeReserve tokens).toNat := by
    have hmax : u32Max = 2 ^ 32 - 1 := rfl
    rw [nextStepGrowthReserve_eq, asU32_of_lt (by omega)]
    exact saturatingAdd_of_lt (by omega)
  rw [hasPrefillBudget] at h
  rw [hused, hreserve, hw.freeBlocks_eq, Bool.and_eq_true, decide_eq_true_eq] at h
  exact h

/-- A prompt that needs a block after its first token was given a reserve. -/
theorem needsReserve_of_started {p : PendingRequest} {blocks : List BlockIdx}
    (hlen : p.request.inputTokens.length < 2 ^ 32)
    (hblocks : blocks.length = p.request.promptBlocks s.config) (hpool : blocks.length < 2 ^ 32)
    (h : (startedSequence p blocks).NeedsAfter s.config 1) :
    s.prefillNeedsDecodeReserve (asU32 p.request.inputTokens.length) = true := by
  have hcontext : (startedSequence p blocks).contextLen = p.request.inputTokens.length := by
    have hle := clampU32_of_lt hlen
    have hsame : (startedSequence p blocks).contextLen =
        saturatingAdd (clampU32 p.request.inputTokens.length) 0 := rfl
    rw [hsame, hle, saturatingAdd_of_lt hlen, Nat.add_zero]
  have hlogical : (startedSequence p blocks).logicalBlocks.length =
      p.request.promptBlocks s.config := by
    rw [← hblocks]
    exact List.length_map _
  have htwice : saturatingAdd (saturatingAdd p.request.inputTokens.length 1) 1 =
      saturatingAdd p.request.inputTokens.length 2 := by
    unfold saturatingAdd
    omega
  rw [Sequence.NeedsAfter, hlogical, hcontext, htwice, asU32_of_lt (hblocks ▸ hpool),
    Request.promptBlocks, asU32_of_lt hlen] at h
  rw [prefillNeedsDecodeReserve, asU32_of_lt hlen]
  exact decide_eq_true h

/-- A start leaves a block for every active sequence that needs one after its next token. -/
theorem start_reserved (hw : s.Wf) (hcount : s.numUnfinished ≤ u32Max) {p : PendingRequest}
    {queue : List PendingRequest} {kvCache : KVCacheManager} (hqueue : s.pendingQueue = p :: queue)
    (hlen : p.request.inputTokens.length < 2 ^ 32)
    (hkv : s.kvCache.Opened p.seqId (p.request.promptBlocks s.config) kvCache)
    (hbudget : s.hasPrefillBudget (p.request.promptBlocks s.config)
      (asU32 p.request.inputTokens.length) = true)
    (hs' : s' = { s with
      pendingQueue := queue
      kvCache := kvCache
      prefillSequences := s.prefillSequences.insert p.seqId (startedSequence p
        (s.kvCache.blockPool.freeList.take (p.request.promptBlocks s.config))) }) :
    s'.Reserved (fun _ => 1) ∧
      F32.le (F32.ofNat s'.kvCache.getMemoryStats.usedBlocks) s.watermark = true := by
  have hw' : s'.Wf := hs' ▸ hw.start (hqueue ▸ .refl _) hkv
  have hconfig : s'.config = s.config := by rw [hs']
  have hpool := hw.length_freeList_le
  have hmax := UInt32.toNat_lt s.config.maxNumBlocks
  have hactive : s.numActiveSequences < u32Max := by
    rw [numUnfinished, hqueue, List.length_cons] at hcount
    omega
  obtain ⟨hmark, hreserve⟩ := of_hasPrefillBudget hw hactive hkv.enough hbudget
  have hfree : s'.kvCache.blockPool.freeList.length =
      s.kvCache.blockPool.freeList.length - p.request.promptBlocks s.config := by
    rw [hs']
    exact (congrArg List.length hkv.taken.freeList).trans (List.length_drop ..)
  have hused : s'.kvCache.getMemoryStats.usedBlocks =
      s.kvCache.getMemoryStats.usedBlocks + p.request.promptBlocks s.config := by
    have hsum := hw.usedBlocks_add
    have hsum' := hw'.usedBlocks_add
    have henough := hkv.enough
    rw [hconfig] at hsum'
    omega
  refine ⟨?_, hused ▸ hmark⟩
  set started := startedSequence p
    (s.kvCache.blockPool.freeList.take (p.request.promptBlocks s.config)) with hstarted
  have hperm : s'.activeSequences.Perm (started :: s.activeSequences) := by
    have hp : p.seqId ∈ s.pendingQueue.map (·.seqId) := by simp [hqueue]
    rw [hs']
    exact (IdMap.vals_insert_perm (hw.nodup_parts.2.1 _ hp).1).append_right _
  have hneeds : started.NeedsAfter s.config 1 →
      s.prefillNeedsDecodeReserve (asU32 p.request.inputTokens.length) = true := by
    have htake : (s.kvCache.blockPool.freeList.take (p.request.promptBlocks s.config)).length =
        p.request.promptBlocks s.config := List.length_take_of_le hkv.enough
    exact needsReserve_of_started hlen htake (by rw [htake]; exact hkv.enough.trans_lt (by omega))
  rw [Reserved, hfree]
  refine le_trans ?_ hreserve
  rw [growthIds, growthIds, List.length_map, List.length_map, hconfig,
    (hperm.filter _).length_eq, List.filter_cons]
  split
  next hneeded =>
    rw [hneeds (of_decide_eq_true hneeded)]
    exact le_rfl
  next => exact Nat.le_add_right _ _

/-! ## The watermark -/

/-- For the blocks of the pool, the float watermark is the integer `W`. -/
def WatermarkIs (s : Scheduler) (W : Nat) : Prop :=
  ∀ n ≤ s.config.maxNumBlocks.toNat, F32.le (F32.ofNat n) s.watermark = true ↔ n ≤ W

/-- All block counts up to `2 ^ 24` are floats, so the watermark is `watermark_blocks`. -/
theorem watermarkIs_toU32 (hw : s.Wf) (hc : s.config.Valid)
    (hmax : s.config.maxNumBlocks.toNat ≤ 2 ^ 24) : s.WatermarkIs s.watermark.toU32 := by
  obtain ⟨q, hq, hq0, -⟩ := hc.threshold
  have hnonneg : 0 ≤ Binary32.nearest (s.config.maxNumBlocks.toNat : ℚ) * q :=
    mul_nonneg (Binary32.nearest_nonneg (Nat.cast_nonneg _)) hq0.le
  intro n hn
  rw [watermark_eq hw hq hq0.le]
  refine ⟨fun hle => ?_, F32.ofNat_le_floor_of_le_toU32 hnonneg⟩
  have hrep : Binary32.Representable (n : ℚ) :=
    ⟨n, 0, by rw [Nat.abs_cast]; exact_mod_cast hn.trans hmax, by simp⟩
  simp only [F32.ofNat, F32.floor, F32.le, decide_eq_true_eq,
    Binary32.nearest_of_representable hrep] at hle
  have hfloor : (n : ℤ) ≤ ⌊Binary32.nearest
      (Binary32.nearest (s.config.maxNumBlocks.toNat : ℚ) * q)⌋ := by exact_mod_cast hle
  simp only [F32.floor, F32.toU32, Int.floor_intCast]
  omega

/-! ## The scan, turn by turn -/

theorem watermark_congr (hw : s.Wf) (hw' : s'.Wf) (h : s'.config = s.config) :
    s'.watermark = s.watermark := by
  have htotal {s : Scheduler} (hw : s.Wf) :
      s.kvCache.getMemoryStats.totalBlocks = asU32 s.config.maxNumBlocks.toNat :=
    congrArg asU32 hw.poolSize
  rw [watermark, watermark, htotal hw, htotal hw', h]

/-- The locals of `schedule` when the scan of the queue begins. -/
def scanStart (s : Scheduler) : ScheduleState :=
  s.prefillPass.withScheduler { s.prefillPass.scheduler with
    pendingQueue := sortPending s.prefillPass.scheduler.pendingQueue }

/-- The locals after `n` turns of the scan. -/
def scanned (s : Scheduler) (n : Nat) : ScheduleState := scanPending n s.scanStart

/-- A pending request of `s` is among the prefills of the batch. -/
def Starts (s : Scheduler) (o : SchedulerOutput) : Prop :=
  ∃ p ∈ s.pendingQueue, p.seqId ∈ o.prefillSequences.map (·.seqId)

instance (s : Scheduler) (o : SchedulerOutput) : Decidable (s.Starts o) :=
  inferInstanceAs
    (Decidable (∃ p ∈ s.pendingQueue, p.seqId ∈ o.prefillSequences.map (·.seqId)))

/-- What a turn of the scan keeps of a pass over `s`. -/
structure Scanned (s : Scheduler) (st : ScheduleState) : Prop where
  wf : st.scheduler.Wf
  config : st.scheduler.config = s.config
  unfinished : st.scheduler.numUnfinished ≤ u32Max
  pending : ∀ p ∈ st.scheduler.pendingQueue, p ∈ s.pendingQueue
  started : s.Starts st.output → st.scheduler.Reserved (fun _ => 1) ∧
    F32.le (F32.ofNat st.scheduler.kvCache.getMemoryStats.usedBlocks) s.watermark = true

theorem Scanned.consider (h : s.Scanned st) (hw : s.Wf)
    (hprompts : ∀ p ∈ s.pendingQueue, p.request.inputTokens.length < 2 ^ 32) {p : PendingRequest}
    {queue : List PendingRequest} (hqueue : st.scheduler.pendingQueue = p :: queue) :
    s.Scanned (considerPending
      (st.withScheduler { st.scheduler with pendingQueue := queue }) p) := by
  have hmoves := (considerPending_turn h.wf hqueue).moves
  have he := Moves.evolves h.wf hmoves
  have hconfig := he.config.trans h.config
  have hcount := he.unfinished.trans h.unfinished
  have hp : p ∈ s.pendingQueue := h.pending p (by simp [hqueue])
  have hnone := h.wf.pageTable_none (h.wf.active_none_of_pending (p := p) (by simp [hqueue]))
  rcases considerPending_cases (st.withScheduler { st.scheduler with pendingQueue := queue })
      hnone h.wf.blockSize with
    ⟨-, heq⟩ | ⟨-, reason, heq⟩ | ⟨-, hstart, kvCache, hkv, heq⟩
  · rw [heq] at he hconfig hcount ⊢
    refine ⟨he.wf, hconfig, hcount, fun q hq => ?_, h.started⟩
    rcases List.mem_append.1 hq with hq | hq
    · exact h.pending q (hqueue ▸ List.mem_cons_of_mem _ hq)
    · exact List.mem_singleton.1 hq ▸ hp
  · rw [heq] at he hconfig hcount ⊢
    exact ⟨he.wf, hconfig, hcount,
      fun q hq => h.pending q (hqueue ▸ List.mem_cons_of_mem _ hq), h.started⟩
  · rw [heq] at he hconfig hcount ⊢
    refine ⟨he.wf, hconfig, hcount,
      fun q hq => h.pending q (hqueue ▸ List.mem_cons_of_mem _ hq), fun _ => ?_⟩
    rw [← watermark_congr hw h.wf h.config]
    exact start_reserved h.wf h.unfinished hqueue (hprompts p hp) hkv hstart.2 rfl

theorem Scanned.scan (h : s.Scanned st) (hw : s.Wf)
    (hprompts : ∀ p ∈ s.pendingQueue, p.request.inputTokens.length < 2 ^ 32) (n : Nat) :
    s.Scanned (scanPending n st) := by
  induction n generalizing st with
  | zero => exact h
  | succ n ih =>
      cases hqueue : st.scheduler.pendingQueue with
      | nil =>
          rw [scanPending, hqueue]
          exact h
      | cons p queue =>
          rw [scanPending, hqueue]
          exact ih (h.consider hw hprompts hqueue)

/-- The whole scan, unless the memory is under pressure. -/
theorem pass_eq_scanned (s : Scheduler) :
    s.pass = s.prefillPass ∨ ∃ n, s.pass = s.scanned n := by
  rw [pass, schedulePending]
  split
  next => exact .inl rfl
  next => exact .inr ⟨_, rfl⟩

theorem decodePass_prefill (hw : s.Wf) :
    s.decodePass.scheduler.prefillSequences = s.prefillSequences := by
  obtain ⟨-, -, h, -⟩ := scheduleDecode_induction
    (P := fun _ st => st.scheduler.prefillSequences = s.prefillSequences) (wf_passStart hw)
    (sortedSeqIds_nodup s.decodeSequences) (fun _ => mem_sortedSeqIds.1) rfl
    fun h _ _ _ _ _ _ hturn => hturn.prefill_eq.trans h
  exact h

theorem schedulePrefill_feeds (hw : st.scheduler.Wf) (ids : List SeqId) :
    Feeds (fun _ => 0) st.scheduler (schedulePrefill ids st).scheduler := by
  induction ids generalizing st with
  | nil => exact .refl _
  | cons id rest ih =>
      have hkeep (next : ScheduleState) (hnext : next.scheduler = st.scheduler) :
          Feeds (fun _ => 0) st.scheduler (schedulePrefill rest next).scheduler :=
        hnext ▸ ih (hnext ▸ hw)
      have hdrop (reason : String) : Feeds (fun _ => 0) st.scheduler (schedulePrefill rest
          (st.withScheduler (st.scheduler.failSequence id reason))).scheduler := by
        have hfail : Feeds (fun _ => 0) st.scheduler
            (st.withScheduler (st.scheduler.failSequence id reason)).scheduler :=
          failSequence_feeds hw id reason
        exact hfail.trans (ih (Moves.evolves hw (failSequence_moves _ id reason)).wf)
      rw [schedulePrefill]
      dsimp only
      split
      · exact .refl _
      · split
        · exact ih hw
        · split
          · exact hdrop _
          · split
            · exact hdrop _
            · split
              · exact hkeep _ rfl
              · exact hkeep _ rfl

/-- Nothing is started before the scan. -/
theorem not_starts_prefillPass (hw : s.Wf) : ¬ s.Starts s.prefillPass.output := by
  rintro ⟨p, hp, hmem⟩
  obtain ⟨hprefill, hdecode, -⟩ := hw.nodup_parts.2.1 p.seqId (List.mem_map_of_mem hp)
  obtain ⟨seq, hseq, hid⟩ := List.mem_map.1 hmem
  have hactive := Wf.active_of_prefill ((prefillPass_spec hw).outPrefill seq hseq)
  have hby := decodePass_spec hw
  obtain ⟨old, hold, -⟩ :=
    (schedulePrefill_feeds (hby.wf (wf_passStart hw)) _).active hactive
  rw [hid] at hold
  rcases Option.or_eq_some_iff.1 hold with hold | ⟨-, hold⟩
  · rw [decodePass_prefill hw, hprefill] at hold
    cases hold
  · obtain ⟨first, hfirst, -⟩ := hby.decode hold
    exact absurd (hfirst.symm.trans hdecode) (Option.some_ne_none _)

theorem scanned_keeps (hw : s.Wf) (hcount : s.numUnfinished ≤ u32Max)
    (hprompts : ∀ p ∈ s.pendingQueue, p.request.inputTokens.length < 2 ^ 32) (n : Nat) :
    s.Scanned (s.scanned n) := by
  have hby := prefillPass_spec hw
  have hw' := hby.wf (wf_passStart hw)
  have hreorder : Move s.prefillPass.scheduler s.scanStart.scheduler :=
    .reorder (sortPending_perm _).symm
  have he := Moves.evolves (wf_passStart hw) (hby.moves.tail hreorder)
  have hstart : s.Scanned s.scanStart :=
    ⟨he.wf, he.config, he.unfinished.trans hcount,
      fun p hp => hby.pending p ((sortPending_perm _).mem_iff.1 hp),
      fun h => absurd h (not_starts_prefillPass hw)⟩
  exact hstart.scan hw hprompts n

theorem schedule_reserved (hw : s.Wf) (hcount : s.numUnfinished ≤ u32Max)
    (hprompts : ∀ p ∈ s.pendingQueue, p.request.inputTokens.length < 2 ^ 32)
    (hstarts : s.Starts s.schedule.1) : s.schedule.2.Reserved fun _ => 1 := by
  have hstarts' : s.Starts s.pass.output := hstarts
  rcases s.pass_eq_scanned with heq | ⟨n, heq⟩
  · exact absurd (heq ▸ hstarts') (not_starts_prefillPass hw)
  · have hkept := ((scanned_keeps hw hcount hprompts n).started (heq ▸ hstarts')).1
    rwa [← heq] at hkept

/-! ## The decode loop of the next pass -/

/-- No sequence has been ended, and a block is free for each one not handled yet that
needs one. -/
structure Covers (s : Scheduler) (pre : List SeqId) (st : ScheduleState) : Prop where
  config : st.scheduler.config = s.config
  completed : st.scheduler.completedRequests = s.completedRequests
  free : ((s.growthIds fun _ => 0).diff pre).length ≤
    st.scheduler.kvCache.blockPool.freeList.length

theorem Covers.turn {pre : List SeqId} {seq : Sequence} (h : s.Covers pre st) (hw : s.Wf)
    (hid : id ∉ pre) (hseq : s.decodeSequences[id]? = some seq)
    (hturn : DecodeTurn st id seq st') : s.Covers (pre ++ [id]) st' := by
  have hdue : seq.NeedsBlock st.scheduler.config →
      id ∈ (s.growthIds fun _ => 0).diff pre := fun hneeds => by
    rw [h.config, ← Sequence.needsAfter_zero] at hneeds
    exact List.mem_diff_of_mem
      ((mem_growthIds hw).2 ⟨seq, hw.active_of_decode hseq, hneeds⟩) hid
  have herase : (s.growthIds fun _ => 0).diff (pre ++ [id]) =
      ((s.growthIds fun _ => 0).diff pre).erase id := by
    rw [List.diff_append, List.diff_cons, List.diff_nil]
  cases hturn with
  | keep =>
      refine ⟨h.config, h.completed, ?_⟩
      rw [herase]
      exact List.length_erase_le.trans h.free
  | grow hneeds hkv =>
      refine ⟨h.config, h.completed, ?_⟩
      rw [herase, List.length_erase_of_mem (hdue hneeds)]
      refine (Nat.sub_le_sub_right h.free 1).trans (le_of_eq ?_)
      exact ((congrArg List.length hkv.taken.freeList).trans (List.length_drop ..)).symm
  | fail hneeds hnil =>
      have hfree := h.free
      rw [hnil] at hfree
      exact absurd (List.length_pos_of_mem (hdue hneeds)) (Nat.not_lt.2 hfree)

/-- With a block for every sequence that needs one, the loop ends none. -/
theorem decodePass_completed_eq (hw : s.Wf) (h : s.Reserved fun _ => 0) :
    s.decodePass.scheduler.completedRequests = s.completedRequests := by
  obtain ⟨pre, -, hdone, -⟩ := scheduleDecode_induction (P := s.Covers) (wf_passStart hw)
    (sortedSeqIds_nodup s.decodeSequences) (fun _ => mem_sortedSeqIds.1) ⟨rfl, rfl, h⟩
    fun h _ _ hid hseq _ _ hturn => h.turn hw hid hseq hturn
  exact hdone.completed

theorem not_failsForBlock (hw : s.Wf) (h : s.Reserved fun _ => 0) (a : SeqId) :
    ¬ s.FailsForBlock a := by
  intro hfails
  obtain ⟨seq, hseq, hmem⟩ := (failsForBlock_iff hw).1 hfails
  rw [decodePass_completed_eq hw h] at hmem
  have hnone := hw.active_none_of_completed hmem
  rw [hw.active_of_decode hseq] at hnone
  cases hnone

end Scheduler

namespace History

open Scheduler

/-- From every reachable state: a prompt is started below the watermark only, and after a
pass that has started one, and at most a token for each sequence, the decode loop of the
next pass fails no sequence for want of a block. -/
theorem reserve_of_run (config : EngineConfig) (ops more : List SchedulerOp)
    (hprompts : ∀ p ∈ ((new config).run ops).scheduler.pendingQueue,
      p.request.inputTokens.length < 2 ^ 32)
    (hstarts : ((new config).run ops).scheduler.Starts
      ((new config).run ops).scheduler.schedule.1)
    (hmore : .schedule ∉ more) (honce : (more.flatMap SchedulerOp.fedIds).Nodup) :
    (∀ W, ((new config).run ops).scheduler.WatermarkIs W → ∀ n,
        ((new config).run ops).scheduler.Starts
          (((new config).run ops).scheduler.scanned n).output →
        (((new config).run ops).scheduler.scanned n).scheduler.kvCache.getMemoryStats.usedBlocks ≤
          W) ∧
      ∀ a, ¬ ((new config).run (ops ++ .schedule :: more)).scheduler.FailsForBlock a := by
  have hi := (inv_new config).run ops
  rw [run_append]
  generalize (new config).run ops = h at *
  have hcount : h.scheduler.numUnfinished ≤ u32Max :=
    hi.unfinished.trans (Nat.le_pred_of_lt (UInt32.toNat_lt _))
  refine ⟨fun W hW n hstarted => ?_, fun a => ?_⟩
  · have hkept := scanned_keeps hi.wf hcount hprompts n
    have hused := hkept.wf.usedBlocks_add
    rw [hkept.config] at hused
    exact (hW _ (by omega)).1 (hkept.started hstarted).2
  · have hi' := hi.apply .schedule
    have hreserved := schedule_reserved hi.wf hcount hprompts hstarts
    have hfed := run_feeds hi' hmore
    have hwf := (hi'.run more).wf
    refine not_failsForBlock hwf (hfed.reserved hi'.wf hwf (fun id => ?_) hreserved) a
    rw [Nat.zero_add]
    exact List.nodup_iff_count_le_one.1 honce id

/-- Eight blocks of one token and a watermark of six. -/
def reservedConfig : EngineConfig :=
  { blockSize := 1, maxNumBlocks := 8, memoryThreshold := .finite (3 / 4) }

def reservedOps : List SchedulerOp := [.addRequest 1 [5, 6] {}, .addRequest 2 [7] {}]

def reservedMore : List SchedulerOp :=
  [.updateSequences { nextTokens := [7, 8], seqIds := [1, 2] } 99, .cancelByRequestId 2]

theorem reserve_of_run_small :
    (∀ n, ((new reservedConfig).run reservedOps).scheduler.Starts
          (((new reservedConfig).run reservedOps).scheduler.scanned n).output →
        (((new reservedConfig).run reservedOps).scheduler.scanned
          n).scheduler.kvCache.getMemoryStats.usedBlocks ≤ 6) ∧
      ¬ ((new reservedConfig).run
        (reservedOps ++ .schedule :: reservedMore)).scheduler.FailsForBlock 1 := by
  have hsix : ((new reservedConfig).run reservedOps).scheduler.watermark.toU32 = 6 := by
    decide +kernel
  have hmark : ((new reservedConfig).run reservedOps).scheduler.WatermarkIs 6 := by
    rw [← hsix]
    exact watermarkIs_toU32 ((inv_new reservedConfig).run reservedOps).wf
      (EngineConfig.valid_of_validate (by decide +kernel)) (by decide +kernel)
  have hreserve := reserve_of_run reservedConfig reservedOps reservedMore (by decide +kernel)
    (by decide +kernel) (by simp [reservedMore]) (by decide +kernel)
  exact ⟨hreserve.1 6 hmark, hreserve.2 1⟩

end History

end PagedServing
