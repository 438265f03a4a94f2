import PagedServing.Scheduler.Budget
import PagedServing.Scheduler.Holding
import PagedServing.Scheduler.Reserve

/-! # The scan of the pending queue

Each candidate is judged at its own turn, while batch, pool and growth reserve change
with every start. Every limit only gets tighter, so what a turn refuses stays refused
to the end of the call.
-/

namespace PagedServing

open FixedWidth Relation

namespace Scheduler

variable {s : Scheduler} {st st' : ScheduleState} {p a b : PendingRequest}
  {queue back l : List PendingRequest}

/-! ## Limits -/

/-- No limit of a start is looser in `st'` than in `st`. -/
structure Tighter (st st' : ScheduleState) : Prop where
  config : st'.scheduler.config = st.scheduler.config
  numSequences : st.numSequences ≤ st'.numSequences
  totalTokens : st.totalTokens ≤ st'.totalTokens
  free : st'.scheduler.kvCache.blockPool.freeList.length ≤
    st.scheduler.kvCache.blockPool.freeList.length
  reserve : st.scheduler.nextStepGrowthReserve ≤ st'.scheduler.nextStepGrowthReserve

namespace Tighter

theorem refl (st : ScheduleState) : Tighter st st := ⟨rfl, le_rfl, le_rfl, le_rfl, le_rfl⟩

theorem trans {st'' : ScheduleState} (h : Tighter st st') (h' : Tighter st' st'') :
    Tighter st st'' where
  config := h'.config.trans h.config
  numSequences := h.numSequences.trans h'.numSequences
  totalTokens := h.totalTokens.trans h'.totalTokens
  free := h'.free.trans h.free
  reserve := h.reserve.trans h'.reserve

theorem fits (h : Tighter st st') {m n : Nat} (hmn : m ≤ n) (hfits : st'.Fits n) : st.Fits m := by
  obtain ⟨hbatch, htokens⟩ := hfits
  rw [h.config] at hbatch htokens
  refine ⟨h.numSequences.trans_lt hbatch, le_trans ?_ htokens⟩
  have htotal := h.totalTokens
  unfold saturatingAdd
  omega

/-- A smaller prompt with no more need of a reserve passes every budget that a larger one
passes later. -/
theorem hasPrefillBudget (h : Tighter st st') (hw : st.scheduler.Wf) (hw' : st'.scheduler.Wf)
    {blocks blocks' tokens tokens' : Nat} (hblocks : blocks ≤ blocks')
    (hneeds : st.scheduler.prefillNeedsDecodeReserve tokens = true →
      st.scheduler.prefillNeedsDecodeReserve tokens' = true)
    (hbudget : st'.scheduler.hasPrefillBudget blocks' tokens' = true) :
    st.scheduler.hasPrefillBudget blocks tokens = true := by
  have hused := hw.usedBlocks_add
  have hused' := hw'.usedBlocks_add
  have hfree := h.free
  have hreserve := h.reserve
  have hneeded : (st.scheduler.prefillNeedsDecodeReserve tokens).toNat ≤
      (st'.scheduler.prefillNeedsDecodeReserve tokens').toNat := by
    rw [prefillNeedsDecodeReserve_congr h.config]
    exact Bool.toNat_le_toNat (by simpa [Bool.le_iff_imp] using hneeds)
  simp only [Scheduler.hasPrefillBudget, Bool.and_eq_true, decide_eq_true_eq, saturatingAdd,
    hw.freeBlocks_eq, hw'.freeBlocks_eq, watermark_congr hw hw' h.config] at hbudget ⊢
  rw [h.config] at hused'
  exact ⟨F32.ofNat_le_of_le (by omega) hbudget.1, by omega⟩

end Tighter

/-- The sequences that grow in the next step are counted without wrapping. -/
theorem nextStepGrowthReserve_of_le (hcount : s.numUnfinished ≤ u32Max) :
    s.nextStepGrowthReserve = (s.growthIds fun _ => 1).length := by
  have hactive := s.length_growthIds_le_active fun _ => 1
  rw [numUnfinished, u32Max] at hcount
  rw [nextStepGrowthReserve_eq, asU32_of_lt (by omega)]

/-- One more active sequence does not lower the growth reserve. -/
theorem nextStepGrowthReserve_insert {s' : Scheduler} {id : SeqId} {seq : Sequence}
    (hcount : s.numUnfinished ≤ u32Max) (hcount' : s'.numUnfinished ≤ u32Max)
    (hnew : s.prefillSequences[id]? = none) (hconfig : s'.config = s.config)
    (hprefill : s'.prefillSequences = s.prefillSequences.insert id seq)
    (hdecode : s'.decodeSequences = s.decodeSequences) :
    s.nextStepGrowthReserve ≤ s'.nextStepGrowthReserve := by
  have hperm : s'.activeSequences.Perm (seq :: s.activeSequences) := by
    rw [activeSequences, hprefill, hdecode]
    exact (IdMap.vals_insert_perm hnew).append_right _
  rw [nextStepGrowthReserve_of_le hcount, nextStepGrowthReserve_of_le hcount', growthIds,
    growthIds, List.length_map, List.length_map, hconfig, (hperm.filter _).length_eq]
  exact ((List.sublist_cons_self seq s.activeSequences).filter _).length_le

/-- A start tightens every limit, and nothing else in a turn touches one. -/
theorem considerPending_tighter (hw : st.scheduler.Wf) (hcount : st.scheduler.numUnfinished ≤ u32Max)
    (htokens : st.totalTokens ≤ u32Max) (hqueue : st.scheduler.pendingQueue = p :: queue) :
    Tighter st
      (considerPending (st.withScheduler { st.scheduler with pendingQueue := queue }) p) := by
  have hp : p ∈ st.scheduler.pendingQueue := by simp [hqueue]
  have hcount' := (Moves.evolves hw (considerPending_turn hw hqueue).moves).unfinished.trans hcount
  rcases considerPending_cases (st.withScheduler { st.scheduler with pendingQueue := queue })
      (hw.pageTable_none (hw.active_none_of_pending hp)) hw.blockSize with
    ⟨-, heq⟩ | ⟨-, reason, heq⟩ | ⟨-, -, kvCache, hkv, heq⟩
  · rw [heq]
    exact ⟨rfl, le_rfl, le_rfl, le_rfl, le_rfl⟩
  · rw [heq]
    exact ⟨rfl, le_rfl, le_rfl, le_rfl, le_rfl⟩
  · rw [heq] at hcount' ⊢
    refine ⟨rfl, Nat.le_succ _, le_saturatingAdd_left htokens, ?_, ?_⟩
    · refine (congrArg List.length hkv.taken.freeList).trans_le ?_
      rw [List.length_drop]
      exact Nat.sub_le _ _
    · exact nextStepGrowthReserve_insert hcount hcount'
        (hw.nodup_parts.2.1 _ (List.mem_map_of_mem hp)).1 rfl rfl rfl

/-! ## Turns -/

theorem scanPending_add (m n : Nat) (st : ScheduleState) :
    scanPending (m + n) st = scanPending n (scanPending m st) := by
  induction m generalizing st with
  | zero => rw [Nat.zero_add, scanPending]
  | succ m ih =>
      rw [Nat.succ_add, scanPending, scanPending]
      split
      next hqueue => cases n <;> simp [scanPending, hqueue]
      next p queue hqueue => exact ih _

theorem scanPending_tighter (hw : st.scheduler.Wf) (hcount : st.scheduler.numUnfinished ≤ u32Max)
    (htally : Tallied st) (n : Nat) : Tighter st (scanPending n st) := by
  induction n generalizing st with
  | zero => exact .refl st
  | succ n ih =>
      cases hqueue : st.scheduler.pendingQueue with
      | nil => simpa [scanPending, hqueue] using Tighter.refl st
      | cons p queue =>
          have hturn := considerPending_turn hw hqueue
          have htokens : st.totalTokens ≤ u32Max := htally.totalTokens ▸ Nat.min_le_right _ _
          have he := Moves.evolves hw hturn.moves
          rw [scanPending, hqueue]
          exact (considerPending_tighter hw hcount htokens hqueue).trans
            (ih he.wf (he.unfinished.trans hcount) (hturn.tallied htally))

/-- A scan of the first candidates leaves the rest in front and what it defers behind. -/
theorem scanPending_queue (hw : st.scheduler.Wf) (hqueue : st.scheduler.pendingQueue = l ++ back) :
    ∃ kept, kept.Sublist l ∧
      (scanPending l.length st).scheduler.pendingQueue = back ++ kept := by
  induction l generalizing st back with
  | nil => exact ⟨[], .slnil, by rw [List.append_nil]; exact hqueue⟩
  | cons p l ih =>
      rw [List.cons_append] at hqueue
      have hw' := (considerPending_turn hw hqueue).wf hw
      have hnone := hw.pageTable_none (hw.active_none_of_pending (p := p) (by simp [hqueue]))
      rw [List.length_cons, scanPending, hqueue]
      dsimp only
      rcases considerPending_cases
          (st.withScheduler { st.scheduler with pendingQueue := l ++ back }) hnone hw.blockSize with
        ⟨-, heq⟩ | ⟨-, reason, heq⟩ | ⟨-, -, kvCache, -, heq⟩
      · rw [heq] at hw' ⊢
        have hback : (l ++ back) ++ [p] = l ++ (back ++ [p]) := List.append_assoc l back [p]
        obtain ⟨kept, hsub, hfinal⟩ := ih hw' hback
        exact ⟨p :: kept, hsub.cons_cons p, by rw [hfinal, List.append_assoc]; rfl⟩
      · rw [heq] at hw' ⊢
        obtain ⟨kept, hsub, hfinal⟩ := ih hw' rfl
        exact ⟨kept, hsub.cons p, hfinal⟩
      · rw [heq] at hw' ⊢
        obtain ⟨kept, hsub, hfinal⟩ := ih hw' rfl
        exact ⟨kept, hsub.cons p, hfinal⟩

/-- What the turn of a candidate at `st` means for the outcome of the scan. -/
inductive Decided (st : ScheduleState) (p : PendingRequest) (final : ScheduleState) : Prop
  | deferred (h : Deferred st p.request) (hleft : p ∈ final.scheduler.pendingQueue)
  | rejected (reason : String)
      (h : (p.seqId, p.request.fail reason) ∈ final.scheduler.completedRequests)
      (hgone : p ∉ final.scheduler.pendingQueue)
  | started (h : Startable st p.request)
      (henough : p.request.promptBlocks st.scheduler.config ≤
        st.scheduler.kvCache.blockPool.freeList.length)
      (hgone : p ∉ final.scheduler.pendingQueue)

theorem considerPending_decided (hw : st.scheduler.Wf)
    (hqueue : st.scheduler.pendingQueue = p :: (l ++ back)) :
    Decided st p (scanPending (l.length + 1) st) := by
  have hturn := considerPending_turn hw hqueue
  have hw' := hturn.wf hw
  have hnone := hw.pageTable_none (hw.active_none_of_pending (p := p) (by simp [hqueue]))
  have hfresh : p ∉ l ++ back := by
    have hnodup := hw.nodup_parts.1
    rw [hqueue] at hnodup
    exact (List.nodup_cons.1 hnodup.of_map).1
  rw [scanPending, hqueue]
  dsimp only
  have hgone (st' : ScheduleState) (hw' : st'.scheduler.Wf)
      (hqueue' : st'.scheduler.pendingQueue = l ++ back) :
      p ∉ (scanPending l.length st').scheduler.pendingQueue := by
    obtain ⟨kept, hsub, hfinal⟩ := scanPending_queue hw' hqueue'
    rw [hfinal]
    exact fun h => hfresh (List.mem_append.2 ((List.mem_append.1 h).symm.imp_left (hsub.subset ·)))
  rcases considerPending_cases
      (st.withScheduler { st.scheduler with pendingQueue := l ++ back }) hnone hw.blockSize with
    ⟨hdefer, heq⟩ | ⟨-, reason, heq⟩ | ⟨-, hstart, kvCache, hkv, heq⟩
  · rw [heq] at hw' ⊢
    obtain ⟨kept, -, hfinal⟩ := scanPending_queue hw' (List.append_assoc l back [p])
    refine .deferred hdefer (hfinal ▸ List.mem_append_left kept ?_)
    exact List.mem_append_right back (List.mem_singleton.2 rfl)
  · rw [heq] at hw' ⊢
    refine .rejected reason ?_ (hgone _ hw' rfl)
    exact (turns_grow (scanPending_turns l.length hw')).2
      (List.mem_append_right _ (List.mem_singleton.2 rfl))
  · rw [heq] at hw' ⊢
    exact .started hstart hkv.enough (hgone _ hw' rfl)

/-! ## The pass -/

theorem prefillPass_wf (hw : s.Wf) : s.prefillPass.scheduler.Wf :=
  (prefillPass_spec hw).wf (wf_passStart hw)

theorem scanned_turns (hw : s.Wf) (n : Nat) : ReflTransGen Turn s.passStart (s.scanned n) := by
  have hstart : Turn s.prefillPass s.scanStart := .reorder (sortPending_perm _).symm
  exact ((prefillPass_turns hw).tail hstart).trans
    (scanPending_turns n (hstart.wf (prefillPass_wf hw)))

theorem scanned_wf (hw : s.Wf) (n : Nat) : (s.scanned n).scheduler.Wf :=
  (Moves.evolves (wf_passStart hw) (turns_moves (scanned_turns hw n))).wf

theorem scanned_tighter (hw : s.Wf) (hcount : s.numUnfinished ≤ u32Max) (m n : Nat) :
    Tighter (s.scanned m) (s.scanned (m + n)) := by
  have hturns := scanned_turns hw m
  have he := Moves.evolves (wf_passStart hw) (turns_moves hturns)
  rw [scanned, scanned, scanPending_add]
  exact scanPending_tighter he.wf (he.unfinished.trans hcount)
    (turns_tallied (tallied_start s) hturns) n

/-- The candidate that is sorted behind `l` has its turn after as many turns. -/
theorem scanned_decided (hw : s.Wf) {rest : List PendingRequest}
    (hsorted : sortPending s.prefillPass.scheduler.pendingQueue = l ++ p :: rest) :
    (∃ queue, (s.scanned l.length).scheduler.pendingQueue = p :: queue) ∧
      Decided (s.scanned l.length) p (s.scanned (l.length + (rest.length + 1))) := by
  have hw' : s.scanStart.scheduler.Wf := scanned_wf hw 0
  have hstart : s.scanStart.scheduler.pendingQueue = l ++ p :: rest := hsorted
  obtain ⟨kept, -, hqueue⟩ := scanPending_queue hw' hstart
  refine ⟨⟨rest ++ kept, hqueue⟩, ?_⟩
  rw [scanned, scanned, scanPending_add]
  exact considerPending_decided (scanned_wf hw l.length) hqueue

theorem pass_of_open (hopen : s.prefillPass.scheduler.underMemoryPressure = false) :
    s.pass = s.scanned (sortPending s.prefillPass.scheduler.pendingQueue).length := by
  rw [pass, schedulePending, hopen]
  rfl

theorem mem_sorted_of_left (hw : s.Wf)
    (hopen : s.prefillPass.scheduler.underMemoryPressure = false)
    (hp : p ∈ s.pass.scheduler.pendingQueue) :
    p ∈ sortPending s.prefillPass.scheduler.pendingQueue := by
  have hw' : s.scanStart.scheduler.Wf := scanned_wf hw 0
  have hstart : s.scanStart.scheduler.pendingQueue =
      sortPending s.prefillPass.scheduler.pendingQueue ++ [] := (List.append_nil _).symm
  obtain ⟨kept, hsub, hfinal⟩ := scanPending_queue hw' hstart
  rw [pass_of_open hopen, scanned, hfinal, List.nil_append] at hp
  exact hsub.subset hp

/-- What the pass leaves pending has been deferred at its turn. -/
theorem deferred_of_left (hw : s.Wf)
    (hopen : s.prefillPass.scheduler.underMemoryPressure = false) {rest : List PendingRequest}
    (hsorted : sortPending s.prefillPass.scheduler.pendingQueue = l ++ p :: rest)
    (hp : p ∈ s.pass.scheduler.pendingQueue) :
    s.pass = s.scanned (l.length + (rest.length + 1)) ∧
      Deferred (s.scanned l.length) p.request := by
  have hpass := pass_of_open hopen
  rw [hsorted, List.length_append, List.length_cons] at hpass
  refine ⟨hpass, ?_⟩
  cases (scanned_decided hw hsorted).2 with
  | deferred h _ => exact h
  | rejected _ _ hgone => exact absurd (hpass ▸ hp) hgone
  | started _ _ hgone => exact absurd (hpass ▸ hp) hgone

/-! ## No inversion -/

/-- A request that the pass has started is neither pending nor ended after it. -/
theorem started_of_pass (hw : s.Wf) (hb : b ∈ s.pendingQueue)
    (hstarts : b.seqId ∈ s.pass.output.prefillSequences.map (·.seqId)) :
    b ∉ s.pass.scheduler.pendingQueue ∧
      b.seqId ∉ s.pass.scheduler.completedRequests.map (·.1) ∧
      s.prefillPass.scheduler.underMemoryPressure = false ∧
      b ∈ s.prefillPass.scheduler.pendingQueue := by
  have hby := pass_spec hw
  have hfinal := hby.wf (wf_passStart hw)
  obtain ⟨seq, hseq, hid⟩ := List.mem_map.1 hstarts
  have hactive := Wf.active_of_prefill (hby.outPrefill seq hseq)
  rw [hid] at hactive
  have hended : b.seqId ∉ s.pass.scheduler.completedRequests.map (·.1) := by
    intro hmem
    obtain ⟨r, hr, hrid⟩ := List.mem_map.1 hmem
    have hnone : s.pass.scheduler.active r.1 = none := hfinal.active_none_of_completed hr
    rw [hrid, hactive] at hnone
    cases hnone
  refine ⟨fun hmem => ?_, hended, ?_⟩
  · rw [hfinal.active_none_of_pending hmem] at hactive
    cases hactive
  cases hopen : s.prefillPass.scheduler.underMemoryPressure with
  | true =>
      have hpass : s.pass = s.prefillPass := by rw [pass, schedulePending, hopen]; rfl
      exact absurd ⟨b, hb, hpass ▸ hstarts⟩ (not_starts_prefillPass hw)
  | false =>
      refine ⟨rfl, ?_⟩
      have hpending : s.passStart.scheduler.Holds b.seqId (.pending b.request) := hb
      rcases (prefillPass_spec hw).holds_of_pending (wf_passStart hw) hpending with
        ⟨h, -⟩ | ⟨reason, h, -⟩ | ⟨blocks, -, h⟩
      · exact h
      · have hturns := schedulePending_turns (prefillPass_wf hw)
        have hkept := (Moves.evolves (prefillPass_wf hw) (turns_moves hturns)).completed
        exact absurd (List.mem_map_of_mem (hkept.subset h)) hended
      · exact absurd ⟨b, hb, List.mem_map_of_mem h⟩ (not_starts_prefillPass hw)

theorem sortPending_pairwise (queue : List PendingRequest) :
    (sortPending queue).Pairwise fun a b =>
      schedulesBefore (a.request.params.priority, a.seqId) (b.request.params.priority, b.seqId) :=
  let order (a b : PendingRequest) : Prop :=
    schedulesBefore (a.request.params.priority, a.seqId) (b.request.params.priority, b.seqId)
  haveI : Std.Total order := ⟨fun _ _ => schedulesBefore_total _ _⟩
  haveI : IsTrans PendingRequest order := ⟨fun _ _ _ => schedulesBefore_trans⟩
  List.pairwise_insertionSort _ _

/-- What a later candidate needs, an earlier one that needs no more finds too. -/
theorem Startable.of_later (htight : Tighter st st') (hw : st.scheduler.Wf)
    (hw' : st'.scheduler.Wf)
    (hlen : asU32 a.request.inputTokens.length ≤ asU32 b.request.inputTokens.length)
    (hneeds : st.scheduler.prefillNeedsDecodeReserve (asU32 a.request.inputTokens.length) = true →
      st.scheduler.prefillNeedsDecodeReserve (asU32 b.request.inputTokens.length) = true)
    (h : Startable st' b.request)
    (henough : b.request.promptBlocks st'.scheduler.config ≤
      st'.scheduler.kvCache.blockPool.freeList.length) : ¬ Deferred st a.request := by
  have hblocks : a.request.promptBlocks st.scheduler.config ≤
      b.request.promptBlocks st'.scheduler.config := by
    rw [htight.config]
    exact st.scheduler.config.blocksForTokens_mono hlen
  have hfits := htight.fits hlen h.1
  intro hdefer
  obtain ⟨-, hrest⟩ := hdefer hfits.1
  have hshort := (hrest hfits).2 ⟨hfits, htight.hasPrefillBudget hw hw' hblocks hneeds h.2⟩
  exact absurd hshort (Nat.not_lt.2 (hblocks.trans (henough.trans htight.free)))

theorem not_left_of_started (hw : s.Wf) (hcount : s.numUnfinished ≤ u32Max)
    (ha : a ∈ s.pendingQueue) (hb : b ∈ s.pendingQueue)
    (hbefore : schedulesBefore (a.request.params.priority, a.seqId)
      (b.request.params.priority, b.seqId))
    (hlen : asU32 a.request.inputTokens.length ≤ asU32 b.request.inputTokens.length)
    (hneeds : s.prefillNeedsDecodeReserve (asU32 a.request.inputTokens.length) = true →
      s.prefillNeedsDecodeReserve (asU32 b.request.inputTokens.length) = true)
    (hstarts : b.seqId ∈ s.schedule.1.prefillSequences.map (·.seqId)) :
    a ∉ s.schedule.2.pendingQueue := by
  obtain ⟨hgone, hended, hopen, hbq⟩ := started_of_pass hw hb hstarts
  intro hleft
  obtain ⟨l, rest, hsorted⟩ := List.append_of_mem (mem_sorted_of_left hw hopen hleft)
  have hbsorted := (sortPending_perm _).mem_iff.2 hbq
  have hpairwise := sortPending_pairwise s.prefillPass.scheduler.pendingQueue
  rw [hsorted] at hbsorted hpairwise
  rcases List.mem_append.1 hbsorted with hbl | hbr
  · -- a request sorted before `a` is `a` itself
    have hafter := (List.pairwise_append.1 hpairwise).2.2 b hbl a List.mem_cons_self
    have hsame := List.inj_on_of_nodup_map hw.nodup_parts.1 ha hb
      (schedulesBefore_antisymm hbefore hafter)
    exact hgone (hsame ▸ hleft)
  rcases List.mem_cons.1 hbr with rfl | hbr
  · exact hgone hleft
  obtain ⟨m, rest', rfl⟩ := List.append_of_mem hbr
  have hsorted' : sortPending s.prefillPass.scheduler.pendingQueue =
      (l ++ a :: m) ++ b :: rest' := by rw [hsorted, List.append_assoc]; rfl
  have hpass := pass_of_open hopen
  rw [hsorted', List.length_append, List.length_cons] at hpass
  have hdefer := (deferred_of_left hw hopen hsorted hleft).2
  cases (scanned_decided hw hsorted').2 with
  | deferred _ h => exact hgone (hpass ▸ h)
  | rejected _ h _ => exact hended (hpass ▸ List.mem_map_of_mem h)
  | started h henough _ =>
      have htight := scanned_tighter hw hcount l.length (m.length + 1)
      rw [List.length_append, List.length_cons] at h henough
      have hconfig : (s.scanned l.length).scheduler.config = s.config :=
        (Moves.evolves (wf_passStart hw) (turns_moves (scanned_turns hw _))).config
      refine Startable.of_later htight (scanned_wf hw _) (scanned_wf hw _) hlen ?_ h henough hdefer
      rwa [prefillNeedsDecodeReserve_congr hconfig, prefillNeedsDecodeReserve_congr hconfig]

/-! ## Work conservation -/

/-- What is left in the queue, and why it is not in the batch `o`: the batch is full, the
prompt exceeds its token budget, or the memory budget after the batch refuses it. -/
def Unaddable (s : Scheduler) (o : SchedulerOutput) (r : Request) : Prop :=
  o.seqIds.length = s.config.maxBatchSize.toNat ∨
    s.config.maxTotalTokens.toNat < o.totalTokens + r.inputTokens.length ∨
    s.hasPrefillBudget (r.promptBlocks s.config) (asU32 r.inputTokens.length) = false

/-- On a pool whose size is exact in `f32`, the budget covers what the start takes. -/
theorem enough_of_hasPrefillBudget (hw : s.Wf) (hc : s.config.Valid)
    (hmax : s.config.maxNumBlocks.toNat < 2 ^ 24) {blocks tokens : Nat}
    (h : s.hasPrefillBudget blocks tokens = true) :
    blocks ≤ s.kvCache.blockPool.freeList.length := by
  obtain ⟨q, hq, hq0, hq1⟩ := hc.threshold
  have hmark : s.watermark = ((F32.ofNat s.config.maxNumBlocks.toNat).mul (.finite q)).floor := by
    rw [watermark_eq hw hq hq0.le, F32.ofNat,
      F32.mul_finite (Binary32.nearest_nonneg (Nat.cast_nonneg _)) hq0.le]
  rw [hasPrefillBudget, Bool.and_eq_true, hmark] at h
  have hle := F32.le_of_ofNat_le_fraction hmax hq0.le hq1 h.1
  have hused := hw.usedBlocks_add
  unfold saturatingAdd u32Max at hle
  omega

/-- The candidate at the head of the queue is started if the budget lets it through. -/
theorem tryStartPrefill_of_budget (hw : s.Wf) (hc : s.config.Valid)
    (hmax : s.config.maxNumBlocks.toNat < 2 ^ 24) (hqueue : s.pendingQueue = p :: queue)
    (h : s.hasPrefillBudget (p.request.promptBlocks s.config)
      (asU32 p.request.inputTokens.length) = true) :
    ({ s with pendingQueue := queue }.tryStartPrefill p.seqId p.request).1 = .ok p.seqId := by
  have hnone := hw.pageTable_none (hw.active_none_of_pending (p := p) (by simp [hqueue]))
  rcases tryStartPrefill_cases (s := { s with pendingQueue := queue }) p.request hnone
      hw.blockSize with ⟨kvCache, -, heq⟩ | ⟨hshort, -⟩
  · rw [heq]
  · exact absurd (enough_of_hasPrefillBudget hw hc hmax h) (Nat.not_le.2 hshort)

theorem Turn.underMemoryPressure_eq (h : Turn st st') :
    st'.scheduler.underMemoryPressure = st.scheduler.underMemoryPressure := by
  cases h with
  | drop _ h => rcases retire_cases h with ⟨_, _, rfl⟩ | ⟨_, _, _, rfl⟩ <;> rfl
  | _ => rfl

theorem turns_underMemoryPressure (h : ReflTransGen Turn st st') :
    st'.scheduler.underMemoryPressure = st.scheduler.underMemoryPressure := by
  induction h with
  | refl => rfl
  | tail _ hturn ih => exact hturn.underMemoryPressure_eq.trans ih

theorem unaddable_of_left (hw : s.Wf) (hc : s.config.Valid) (hcount : s.numUnfinished ≤ u32Max)
    (hmax : s.config.maxNumBlocks.toNat < 2 ^ 24)
    (hopen : s.updateMemoryPressure.underMemoryPressure = false)
    (hp : p ∈ s.schedule.2.pendingQueue) : s.schedule.2.Unaddable s.schedule.1 p.request := by
  have hopen' : s.prefillPass.scheduler.underMemoryPressure = false :=
    (turns_underMemoryPressure (prefillPass_turns hw)).trans hopen
  obtain ⟨l, rest, hsorted⟩ := List.append_of_mem (mem_sorted_of_left hw hopen' hp)
  obtain ⟨hpass, hdefer⟩ := deferred_of_left hw hopen' hsorted hp
  have htight := scanned_tighter hw hcount l.length (rest.length + 1)
  have hw₁ := scanned_wf hw l.length
  have hwf := scanned_wf hw (l.length + (rest.length + 1))
  have htally := pass_tallied hw
  have hconfig := (Moves.evolves (wf_passStart hw) (turns_moves (scanned_turns hw l.length))).config
  rw [← hpass] at htight hwf
  have hc₁ : (s.scanned l.length).scheduler.config.Valid := hconfig ▸ hc
  have hmax₁ : (s.scanned l.length).scheduler.config.maxNumBlocks.toNat < 2 ^ 24 := hconfig ▸ hmax
  rcases Nat.lt_or_ge (s.scanned l.length).numSequences
      (s.scanned l.length).scheduler.config.maxBatchSize.toNat with hroom | hfull
  · obtain ⟨-, hrest⟩ := hdefer hroom
    by_cases hfits : (s.scanned l.length).Fits (asU32 p.request.inputTokens.length)
    · refine .inr (.inr (Bool.eq_false_iff.2 fun hbudget => ?_))
      rw [Request.promptBlocks, (show s.schedule.2.config = _ from htight.config)] at hbudget
      have hbudget₁ := htight.hasPrefillBudget hw₁ hwf le_rfl id hbudget
      have hshort := (hrest hfits).2 ⟨hfits, hbudget₁⟩
      exact absurd (enough_of_hasPrefillBudget hw₁ hc₁ hmax₁ hbudget₁) (Nat.not_le.2 hshort)
    · have hover := Nat.lt_of_not_le fun hle => hfits ⟨hroom, hle⟩
      have htotal := htight.totalTokens
      have hlen := asU32_le p.request.inputTokens.length
      rw [← htight.config] at hover
      unfold saturatingAdd at hover
      refine .inr (.inl (hover.trans_le ?_))
      exact (Nat.min_le_left _ _).trans (Nat.add_le_add htotal hlen)
  · rw [← htight.config] at hfull
    have hnum := hfull.trans htight.numSequences
    rw [htally.numSequences] at hnum
    exact .inl (le_antisymm (htally.numSequences ▸ htally.batch) hnum)

end Scheduler

namespace History

open Scheduler

/-- Of two waiting requests the one earlier in the scheduling order is not left behind when
a later one is started whose prompt is no shorter and needs a reserve if the earlier one's
does, lengths taken as the pass counts them; so of two requests with equal priority and
equal prompt length the later one never starts while the earlier one stays pending. -/
theorem noInversion_of_run (config : EngineConfig) (ops : List SchedulerOp) :
    (∀ a ∈ ((new config).run ops).scheduler.pendingQueue,
      ∀ b ∈ ((new config).run ops).scheduler.pendingQueue,
        schedulesBefore (a.request.params.priority, a.seqId) (b.request.params.priority, b.seqId) →
        asU32 a.request.inputTokens.length ≤ asU32 b.request.inputTokens.length →
        (((new config).run ops).scheduler.prefillNeedsDecodeReserve
            (asU32 a.request.inputTokens.length) = true →
          ((new config).run ops).scheduler.prefillNeedsDecodeReserve
            (asU32 b.request.inputTokens.length) = true) →
        b.seqId ∈ ((new config).run ops).scheduler.schedule.1.prefillSequences.map (·.seqId) →
        a ∉ ((new config).run ops).scheduler.schedule.2.pendingQueue) ∧
      ∀ a ∈ ((new config).run ops).scheduler.pendingQueue,
        ∀ b ∈ ((new config).run ops).scheduler.pendingQueue, a.seqId < b.seqId →
          a.request.params.priority = b.request.params.priority →
          a.request.inputTokens.length = b.request.inputTokens.length →
          b.seqId ∈ ((new config).run ops).scheduler.schedule.1.prefillSequences.map (·.seqId) →
          a ∉ ((new config).run ops).scheduler.schedule.2.pendingQueue := by
  have hi := (inv_new config).run ops
  generalize (new config).run ops = h at *
  have hcount : h.scheduler.numUnfinished ≤ u32Max :=
    hi.unfinished.trans (Nat.le_pred_of_lt (UInt32.toNat_lt _))
  refine ⟨fun a ha b hb hbefore hlen hneeds hstarts =>
    not_left_of_started hi.wf hcount ha hb hbefore hlen hneeds hstarts,
    fun a ha b hb hlt hpriority hlen hstarts => ?_⟩
  refine not_left_of_started hi.wf hcount ha hb (.inr ⟨hpriority, hlt.le⟩) ?_ ?_ hstarts
  · rw [hlen]
  · rw [hlen]
    exact id

/-- Every request that a pass leaves pending, the memory not being under pressure, could
not have been added to its batch; and in no turn of the scan does a start fail that the
budget check has let through. -/
theorem workConserving_of_run (config : EngineConfig) (ops : List SchedulerOp)
    (hvalid : config.validate = .ok ()) (hmax : config.maxNumBlocks.toNat < 2 ^ 24)
    (hopen :
      ((new config).run ops).scheduler.updateMemoryPressure.underMemoryPressure = false) :
    (∀ p ∈ ((new config).run ops).scheduler.schedule.2.pendingQueue,
      ((new config).run ops).scheduler.schedule.2.Unaddable
        ((new config).run ops).scheduler.schedule.1 p.request) ∧
      ∀ (n : Nat) (p : PendingRequest) (queue : List PendingRequest),
        (((new config).run ops).scheduler.scanned n).scheduler.pendingQueue = p :: queue →
        (((new config).run ops).scheduler.scanned n).scheduler.hasPrefillBudget
            (p.request.promptBlocks config) (asU32 p.request.inputTokens.length) = true →
        ({ (((new config).run ops).scheduler.scanned n).scheduler with
          pendingQueue := queue }.tryStartPrefill p.seqId p.request).1 = .ok p.seqId := by
  have hi := (inv_new config).run ops
  have hconfig : ((new config).run ops).scheduler.config = config :=
    config_run (inv_new config) ops
  generalize (new config).run ops = h at *
  have hcount : h.scheduler.numUnfinished ≤ u32Max :=
    hi.unfinished.trans (Nat.le_pred_of_lt (UInt32.toNat_lt _))
  have hc := EngineConfig.valid_of_validate hvalid
  refine ⟨fun p hp => unaddable_of_left hi.wf (hconfig ▸ hc) hcount (hconfig ▸ hmax) hopen hp,
    fun n p queue hqueue hbudget => ?_⟩
  have hw := scanned_wf hi.wf n
  have hsame : (h.scheduler.scanned n).scheduler.config = config :=
    (Moves.evolves (wf_passStart hi.wf) (turns_moves (scanned_turns hi.wf n))).config.trans hconfig
  exact tryStartPrefill_of_budget hw (hsame ▸ hc) (hsame ▸ hmax) hqueue (hsame.symm ▸ hbudget)

/-- Two places in a batch for three prompts of the same length. -/
def queuedConfig : EngineConfig := { maxBatchSize := 2 }

def queuedOps : List SchedulerOp :=
  [.addRequest 1 [5, 6] {}, .addRequest 2 [7, 8] {}, .addRequest 3 [9, 5] {}]

def queuedRequest (id : RequestId) (inputTokens : List TokenId) : PendingRequest :=
  ⟨id, Request.new id inputTokens {}⟩

theorem noInversion_of_run_queued :
    queuedRequest 1 [5, 6] ∉ ((new queuedConfig).run queuedOps).scheduler.schedule.2.pendingQueue ∧
      queuedRequest 1 [5, 6] ∉
        ((new queuedConfig).run queuedOps).scheduler.schedule.2.pendingQueue := by
  have hrun := noInversion_of_run queuedConfig queuedOps
  exact ⟨hrun.1 _ (by decide +kernel) (queuedRequest 2 [7, 8]) (by decide +kernel)
      (by decide +kernel) (by decide) (by decide +kernel) (by decide +kernel),
    hrun.2 _ (by decide +kernel) (queuedRequest 2 [7, 8]) (by decide +kernel) (by decide)
      (by decide) (by decide) (by decide +kernel)⟩

theorem workConserving_of_run_queued :
    ((new queuedConfig).run queuedOps).scheduler.schedule.2.Unaddable
        ((new queuedConfig).run queuedOps).scheduler.schedule.1
        (queuedRequest 3 [9, 5]).request ∧
      ({ (((new queuedConfig).run queuedOps).scheduler.scanned 1).scheduler with
        pendingQueue := [queuedRequest 3 [9, 5]] }.tryStartPrefill 2
          (queuedRequest 2 [7, 8]).request).1 = .ok 2 := by
  have hrun := workConserving_of_run queuedConfig queuedOps (by decide +kernel) (by decide)
    (by decide +kernel)
  exact ⟨hrun.1 (queuedRequest 3 [9, 5]) (by decide +kernel),
    hrun.2 1 (queuedRequest 2 [7, 8]) [queuedRequest 3 [9, 5]] (by decide +kernel)
      (by decide +kernel)⟩

end History

end PagedServing
