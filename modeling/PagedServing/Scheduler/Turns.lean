import PagedServing.Scheduler.Moves

/-! # One scheduling pass, turn by turn

The three loops of `schedule` as one relation on their shared locals. A turn says
which entry it handles and what it found; `ScheduledBy` is what a whole pass keeps.
-/

namespace PagedServing

open FixedWidth Relation

/-- Does the sequence need one more block before its next token is fed? -/
def Sequence.NeedsBlock (config : EngineConfig) (seq : Sequence) : Prop :=
  asU32 seq.logicalBlocks.length < config.blocksForTokens (saturatingAdd seq.contextLen 1)

/-- `seq'` is `seq` with the block it needed, if it needed one. -/
def Sequence.Grown (config : EngineConfig) (seq seq' : Sequence) : Prop :=
  ¬ seq.NeedsBlock config ∧ seq' = seq ∨
    seq.NeedsBlock config ∧ ∃ ref, seq' = { seq with logicalBlocks := seq.logicalBlocks ++ [ref] }

/-- Blocks a prompt takes when it is started. -/
def Request.promptBlocks (config : EngineConfig) (r : Request) : Nat :=
  config.blocksForTokens (asU32 r.inputTokens.length)

namespace ScheduleState

/-- Room in the batch for one more entry of `n` tokens. -/
def Fits (st : ScheduleState) (n : Nat) : Prop :=
  st.numSequences < st.scheduler.config.maxBatchSize.toNat ∧
    saturatingAdd st.totalTokens n ≤ st.scheduler.config.maxTotalTokens.toNat

@[simp] theorem withScheduler_scheduler (st : ScheduleState) (s : Scheduler) :
    (st.withScheduler s).scheduler = s := rfl

@[simp] theorem withScheduler_output (st : ScheduleState) (s : Scheduler) :
    (st.withScheduler s).output = st.output := rfl

@[simp] theorem pushDecode_scheduler (st : ScheduleState) (seq : Sequence) :
    (st.pushDecode seq).scheduler = st.scheduler := rfl

@[simp] theorem pushPrefill_scheduler (st : ScheduleState) (seq : Sequence) (n : Nat) :
    (st.pushPrefill seq n).scheduler = st.scheduler := rfl

@[simp] theorem mem_seqIds_pushDecode {st : ScheduleState} {seq : Sequence} {id : SeqId} :
    id ∈ (st.pushDecode seq).output.seqIds ↔ id ∈ st.output.seqIds ∨ id = seq.seqId := by
  simp [pushDecode, SchedulerOutput.seqIds, or_assoc, eq_comm]

@[simp] theorem mem_seqIds_pushPrefill {st : ScheduleState} {seq : Sequence} {n : Nat}
    {id : SeqId} :
    id ∈ (st.pushPrefill seq n).output.seqIds ↔ id ∈ st.output.seqIds ∨ id = seq.seqId := by
  simp only [pushPrefill, SchedulerOutput.seqIds, List.map_append, List.map_cons, List.map_nil,
    List.mem_append, List.mem_singleton]
  tauto

end ScheduleState

namespace Scheduler

variable {s s' : Scheduler} {st st' : ScheduleState} {id : SeqId} {seq : Sequence}

/-- What one turn of the loops can do. -/
inductive Turn : ScheduleState → ScheduleState → Prop
  | drop {st : ScheduleState} {s' : Scheduler} {id : SeqId} {reason : String}
      (hid : id ∉ st.output.seqIds) (h : st.scheduler.retire id (.failed reason) = some s') :
      Turn st (st.withScheduler s')
  | keepDecode {st : ScheduleState} {id : SeqId} {seq : Sequence} (hid : id ∉ st.output.seqIds)
      (hfits : st.Fits 1) (h : st.scheduler.decodeSequences[id]? = some seq)
      (henough : ¬ seq.NeedsBlock st.scheduler.config) : Turn st (st.pushDecode seq)
  | growDecode {st : ScheduleState} {id : SeqId} {seq : Sequence} {ref : PhysicalBlockRef}
      {kvCache : KVCacheManager} (hid : id ∉ st.output.seqIds) (hfits : st.Fits 1)
      (h : st.scheduler.decodeSequences[id]? = some seq)
      (hneeds : seq.NeedsBlock st.scheduler.config)
      (hkv : st.scheduler.kvCache.Extended id ref kvCache) :
      Turn st
        ((st.withScheduler { st.scheduler with
            kvCache := kvCache
            decodeSequences := st.scheduler.decodeSequences.insert id
              { seq with logicalBlocks := seq.logicalBlocks ++ [ref] } }).pushDecode
          { seq with logicalBlocks := seq.logicalBlocks ++ [ref] })
  | keepPrefill {st : ScheduleState} {id : SeqId} {seq : Sequence} (hid : id ∉ st.output.seqIds)
      (hfits : st.Fits (asU32 seq.request.inputTokens.length))
      (h : st.scheduler.prefillSequences[id]? = some seq) :
      Turn st (st.pushPrefill seq (asU32 seq.request.inputTokens.length))
  | reorder {st : ScheduleState} {queue : List PendingRequest}
      (h : st.scheduler.pendingQueue.Perm queue) :
      Turn st (st.withScheduler { st.scheduler with pendingQueue := queue })
  | reject {st : ScheduleState} {p : PendingRequest} {queue : List PendingRequest}
      (reason : String) (h : st.scheduler.pendingQueue = p :: queue) :
      Turn st (st.withScheduler { st.scheduler with
        pendingQueue := queue
        completedRequests :=
          st.scheduler.completedRequests ++ [(p.seqId, p.request.fail reason)] })
  | start {st : ScheduleState} {p : PendingRequest} {queue : List PendingRequest}
      {kvCache : KVCacheManager} (hfits : st.Fits (asU32 p.request.inputTokens.length))
      (h : st.scheduler.pendingQueue = p :: queue)
      (hkv : st.scheduler.kvCache.Opened p.seqId
        (p.request.promptBlocks st.scheduler.config) kvCache) :
      Turn st
        ((st.withScheduler { st.scheduler with
            pendingQueue := queue
            kvCache := kvCache
            prefillSequences := st.scheduler.prefillSequences.insert p.seqId
              (startedSequence p (st.scheduler.kvCache.blockPool.freeList.take
                (p.request.promptBlocks st.scheduler.config))) }).pushPrefill
          (startedSequence p (st.scheduler.kvCache.blockPool.freeList.take
            (p.request.promptBlocks st.scheduler.config)))
          (asU32 p.request.inputTokens.length))

theorem Turn.moves (h : Turn st st') : Moves st.scheduler st'.scheduler := by
  cases h with
  | drop _ h => exact .single (.retire (by exact trivial) h)
  | keepDecode => exact .refl
  | growDecode _ _ h _ hkv => exact .single (.grow h hkv)
  | keepPrefill => exact .refl
  | reorder h => exact .single (.reorder h)
  | reject reason h => exact .single (.reject reason (h ▸ .refl _))
  | start _ h hkv => exact .single (.start (h ▸ .refl _) hkv)

theorem turns_moves (h : ReflTransGen Turn st st') : Moves st.scheduler st'.scheduler := by
  induction h with
  | refl => exact .refl
  | tail _ hturn ih => exact ih.trans hturn.moves

theorem Turn.wf (hw : st.scheduler.Wf) (h : Turn st st') : st'.scheduler.Wf :=
  (Moves.evolves hw h.moves).wf

/-! ## The loops take turns -/

theorem growDecodeSequence_cases (hw : s.Wf) (h : s.decodeSequences[id]? = some seq) :
    (¬ seq.NeedsBlock s.config ∧ s.growDecodeSequence id = (.ok (), s)) ∨
      (seq.NeedsBlock s.config ∧ ∃ ref kvCache, s.kvCache.Extended id ref kvCache ∧
        s.growDecodeSequence id = (.ok (), { s with
          kvCache := kvCache
          decodeSequences := s.decodeSequences.insert id
            { seq with logicalBlocks := seq.logicalBlocks ++ [ref] } })) ∨
      (seq.NeedsBlock s.config ∧ s.kvCache.blockPool.freeList = [] ∧
        ∃ reason, s.growDecodeSequence id = (.error reason, s)) := by
  obtain ⟨table, htable, -⟩ := hw.pageTable_of_active (hw.active_of_decode h)
  by_cases hneeds : seq.NeedsBlock s.config
  · refine .inr ?_
    have hif := hneeds
    rw [Sequence.NeedsBlock] at hif
    rcases KVCacheManager.allocateBlock_cases htable with
      ⟨hnil, halloc⟩ | ⟨ref, kvCache, halloc, hext⟩
    · exact .inr ⟨hneeds, hnil, _, by simp [growDecodeSequence, h, hif, halloc]; rfl⟩
    · exact .inl ⟨hneeds, ref, kvCache, hext, by simp [growDecodeSequence, h, hif, halloc]⟩
  · refine .inl ⟨hneeds, ?_⟩
    rw [Sequence.NeedsBlock] at hneeds
    simp [growDecodeSequence, h, hneeds]

theorem retire_of_decode (h : s.decodeSequences[id]? = some seq) (state : RequestState) :
    s.retire id state = some { s with
      decodeSequences := s.decodeSequences.erase id
      kvCache := s.kvCache.freeSequence id
      completedRequests :=
        s.completedRequests ++ [(id, { seq.request with state := state })] } := by
  simp [retire, h]

theorem retire_of_prefill (hd : s.decodeSequences[id]? = none)
    (h : s.prefillSequences[id]? = some seq) (state : RequestState) :
    s.retire id state = some { s with
      prefillSequences := s.prefillSequences.erase id
      kvCache := s.kvCache.freeSequence id
      completedRequests :=
        s.completedRequests ++ [(id, { seq.request with state := state })] } := by
  simp [retire, hd, h]

theorem failSequence_of_retire {reason : String}
    (h : s.retire id (.failed reason) = some s') : s.failSequence id reason = s' := by
  simp [failSequence, h]

theorem scheduleDecode_turns (ids : List SeqId) (hw : st.scheduler.Wf) (hnodup : ids.Nodup)
    (hids : ∀ id ∈ ids, (∃ seq, st.scheduler.decodeSequences[id]? = some seq) ∧
      id ∉ st.output.seqIds) :
    ReflTransGen Turn st (scheduleDecode ids st) := by
  induction ids generalizing st with
  | nil => exact .refl
  | cons id rest ih =>
    obtain ⟨hid, hrest⟩ := List.nodup_cons.1 hnodup
    obtain ⟨⟨seq, hseq⟩, hout⟩ := hids id (by simp)
    have hothers : ∀ a ∈ rest, id ≠ a := fun a ha h => hid (h ▸ ha)
    simp only [scheduleDecode]
    split_ifs with hbatch htokens
    · exact .refl
    · exact .refl
    have hfits : st.Fits 1 := ⟨Nat.lt_of_not_le hbatch, Nat.le_of_not_lt htokens⟩
    rcases growDecodeSequence_cases hw hseq with
      ⟨henough, hgrow⟩ | ⟨hneeds, ref, kvCache, hkv, hgrow⟩ | ⟨hneeds, -, reason, hgrow⟩
    · have hturn : Turn st (st.pushDecode seq) := .keepDecode hout hfits hseq henough
      simp only [hgrow, hseq]
      refine .head hturn (ih (hturn.wf hw) hrest fun a ha => ⟨(hids a (by simp [ha])).1, ?_⟩)
      rw [ScheduleState.mem_seqIds_pushDecode, (hw.decode_tag hseq).1, not_or]
      exact ⟨(hids a (by simp [ha])).2, (hothers a ha).symm⟩
    · have hturn := Turn.growDecode hout hfits hseq hneeds hkv
      simp only [hgrow, IdMap.get_insert, ↓reduceIte]
      refine .head hturn (ih (hturn.wf hw) hrest fun a ha => ⟨?_, ?_⟩)
      · obtain ⟨b, hb⟩ := (hids a (by simp [ha])).1
        exact ⟨b, by simpa [IdMap.get_insert, hothers a ha] using hb⟩
      · rw [ScheduleState.mem_seqIds_pushDecode, (hw.decode_tag hseq).1, not_or]
        exact ⟨(hids a (by simp [ha])).2, (hothers a ha).symm⟩
    · have hretire := retire_of_decode hseq (.failed reason)
      have hturn := Turn.drop hout hretire
      simp only [hgrow, failSequence_of_retire hretire]
      refine .head hturn (ih (hturn.wf hw) hrest fun a ha => ⟨?_, (hids a (by simp [ha])).2⟩)
      obtain ⟨b, hb⟩ := (hids a (by simp [ha])).1
      exact ⟨b, by simpa [IdMap.get_erase, hothers a ha] using hb⟩

theorem schedulePrefill_turns (ids : List SeqId) (hw : st.scheduler.Wf) (hnodup : ids.Nodup)
    (hids : ∀ id ∈ ids, (∃ seq, st.scheduler.prefillSequences[id]? = some seq) ∧
      id ∉ st.output.seqIds) :
    ReflTransGen Turn st (schedulePrefill ids st) := by
  induction ids generalizing st with
  | nil => exact .refl
  | cons id rest ih =>
    obtain ⟨hid, hrest⟩ := List.nodup_cons.1 hnodup
    obtain ⟨⟨seq, hseq⟩, hout⟩ := hids id (by simp)
    have hothers : ∀ a ∈ rest, id ≠ a := fun a ha h => hid (h ▸ ha)
    -- both oversize tests end in the same turn
    have hdrop (reason : String) : ReflTransGen Turn st (schedulePrefill rest
        (st.withScheduler (st.scheduler.failSequence id reason))) := by
      have hretire := retire_of_prefill (hw.nodup_parts.2.2 hseq) hseq (.failed reason)
      have hturn := Turn.drop hout hretire
      rw [failSequence_of_retire hretire]
      refine .head hturn (ih (hturn.wf hw) hrest fun a ha => ⟨?_, (hids a (by simp [ha])).2⟩)
      obtain ⟨b, hb⟩ := (hids a (by simp [ha])).1
      exact ⟨b, by simpa [IdMap.get_erase, hothers a ha] using hb⟩
    simp only [schedulePrefill, hseq]
    split_ifs with hbatch hlarge hblocks htokens
    · exact .refl
    · exact hdrop _
    · exact hdrop _
    · exact ih hw hrest fun a ha => hids a (by simp [ha])
    · have hturn := Turn.keepPrefill hout
        ⟨Nat.lt_of_not_le hbatch, Nat.le_of_not_lt htokens⟩ hseq
      refine .head hturn (ih (hturn.wf hw) hrest fun a ha => ⟨(hids a (by simp [ha])).1, ?_⟩)
      rw [ScheduleState.mem_seqIds_pushPrefill, (hw.prefill_tag hseq).1, not_or]
      exact ⟨(hids a (by simp [ha])).2, (hothers a ha).symm⟩

theorem tryStartPrefill_cases (request : Request) (hid : s.kvCache.pageTables[id]? = none)
    (hsize : s.kvCache.blockPool.blockSize = s.config.blockSize.toNat) :
    (∃ kvCache, s.kvCache.Opened id (request.promptBlocks s.config) kvCache ∧
        s.tryStartPrefill id request = (.ok id, { s with
          kvCache := kvCache
          prefillSequences := s.prefillSequences.insert id
            (startedSequence ⟨id, request⟩ (s.kvCache.blockPool.freeList.take
              (request.promptBlocks s.config))) })) ∨
      (s.kvCache.blockPool.freeList.length < request.promptBlocks s.config ∧
        s.tryStartPrefill id request = (.error (id, request), s)) := by
  have hblocks : s.kvCache.blocksForTokens (asU32 request.inputTokens.length)
      = request.promptBlocks s.config := by
    rw [KVCacheManager.blocksForTokens, hsize]
    rfl
  by_cases hcan : s.kvCache.canAllocate (request.promptBlocks s.config) = true
  · obtain ⟨kvCache, halloc, hkv⟩ := KVCacheManager.allocateSequence_opened hid
      (by rwa [hblocks])
    rw [hblocks] at hkv
    refine .inl ⟨kvCache, hkv, ?_⟩
    rw [Request.promptBlocks] at hcan hkv ⊢
    simp [tryStartPrefill, hcan, halloc, KVCacheManager.getBlockTable, hkv.pageTables,
      PageTable.getBlockTable, startedSequence, Sequence.new, Function.comp_def]
  · refine .inr ⟨Nat.lt_of_not_le (mt KVCacheManager.canAllocate_iff.2 hcan), ?_⟩
    rw [Request.promptBlocks] at hcan
    simp [tryStartPrefill, hcan]

/-- The prompt can never run under this configuration. -/
def Oversized (s : Scheduler) (r : Request) : Prop :=
  s.config.maxTotalTokens.toNat < asU32 r.inputTokens.length ∨
    s.config.maxNumBlocks.toNat < r.promptBlocks s.config ∨
    s.watermark.toU32 < r.promptBlocks s.config

/-- The prompt may be started now, as far as counters and memory budget go. -/
def Startable (st : ScheduleState) (r : Request) : Prop :=
  st.Fits (asU32 r.inputTokens.length) ∧
    st.scheduler.hasPrefillBudget (r.promptBlocks st.scheduler.config)
      (asU32 r.inputTokens.length) = true

/-- Why a candidate goes back to the queue: the batch is full, the prompt does not fit
into what is left of it, or the budget or the pool refuses it for now. -/
def Deferred (st : ScheduleState) (r : Request) : Prop :=
  st.numSequences < st.scheduler.config.maxBatchSize.toNat →
    asU32 r.inputTokens.length ≤ st.scheduler.config.maxTotalTokens.toNat ∧
      (st.Fits (asU32 r.inputTokens.length) → ¬ st.scheduler.Oversized r ∧
        (Startable st r → st.scheduler.kvCache.blockPool.freeList.length <
          r.promptBlocks st.scheduler.config))

/-- A candidate of the scan goes back to the queue, is failed, or is started. -/
theorem considerPending_cases (st : ScheduleState) {p : PendingRequest}
    (hid : st.scheduler.kvCache.pageTables[p.seqId]? = none)
    (hsize : st.scheduler.kvCache.blockPool.blockSize = st.scheduler.config.blockSize.toNat) :
    (Deferred st p.request ∧
        considerPending st p = st.withScheduler (st.scheduler.requeue p)) ∨
      (st.scheduler.Oversized p.request ∧ ∃ reason,
        considerPending st p = st.withScheduler (st.scheduler.rejectPending p reason)) ∨
      (¬ st.scheduler.Oversized p.request ∧ Startable st p.request ∧
        ∃ kvCache, st.scheduler.kvCache.Opened p.seqId
            (p.request.promptBlocks st.scheduler.config) kvCache ∧
          considerPending st p =
            (st.withScheduler { st.scheduler with
              kvCache := kvCache
              prefillSequences := st.scheduler.prefillSequences.insert p.seqId
                (startedSequence p (st.scheduler.kvCache.blockPool.freeList.take
                  (p.request.promptBlocks st.scheduler.config))) }).pushPrefill
              (startedSequence p (st.scheduler.kvCache.blockPool.freeList.take
                (p.request.promptBlocks st.scheduler.config)))
              (asU32 p.request.inputTokens.length)) := by
  rw [considerPending]
  dsimp only
  rw [← Request.promptBlocks]
  split_ifs with hbatch hlarge hblocks htokens hmark hbudget
  · exact .inl ⟨fun h => absurd h (Nat.not_lt.2 hbatch), rfl⟩
  · exact .inr (.inl ⟨.inl hlarge, _, rfl⟩)
  · exact .inr (.inl ⟨.inr (.inl hblocks), _, rfl⟩)
  · exact .inl ⟨fun _ => ⟨Nat.le_of_not_lt hlarge, fun h => absurd h.2 (Nat.not_le.2 htokens)⟩, rfl⟩
  · exact .inr (.inl ⟨.inr (.inr hmark), _, rfl⟩)
  all_goals
    have hsized : ¬ st.scheduler.Oversized p.request := by
      rintro (h | h | h)
      · exact hlarge h
      · exact hblocks h
      · exact hmark h
  · refine .inl ⟨fun _ => ⟨Nat.le_of_not_lt hlarge, fun _ => ⟨hsized, fun h => ?_⟩⟩, rfl⟩
    simp [h.2] at hbudget
  · have hstart : Startable st p.request :=
      ⟨⟨Nat.lt_of_not_le hbatch, Nat.le_of_not_lt htokens⟩, by simpa using hbudget⟩
    rcases tryStartPrefill_cases p.request hid hsize with
      ⟨kvCache, hkv, hrun⟩ | ⟨hfull, hrun⟩
    · exact .inr (.inr ⟨hsized, hstart, kvCache, hkv, by simp [hrun]⟩)
    · exact .inl ⟨fun _ => ⟨Nat.le_of_not_lt hlarge, fun _ => ⟨hsized, fun _ => hfull⟩⟩,
        by simp [hrun]⟩

theorem considerPending_turn {p : PendingRequest} {queue : List PendingRequest}
    (hw : st.scheduler.Wf) (hqueue : st.scheduler.pendingQueue = p :: queue) :
    Turn st
      (considerPending (st.withScheduler { st.scheduler with pendingQueue := queue }) p) := by
  have hnone := hw.pageTable_none (hw.active_none_of_pending (p := p) (by simp [hqueue]))
  rcases considerPending_cases
      (st.withScheduler { st.scheduler with pendingQueue := queue }) hnone hw.blockSize with
    ⟨-, heq⟩ | ⟨-, reason, heq⟩ | ⟨-, hstart, kvCache, hkv, heq⟩
  · rw [heq]
    exact .reorder (by rw [hqueue]; exact (List.perm_append_singleton p queue).symm)
  · rw [heq]
    exact .reject reason hqueue
  · rw [heq]
    exact .start hstart.1 hqueue hkv

theorem scanPending_turns (n : Nat) (hw : st.scheduler.Wf) :
    ReflTransGen Turn st (scanPending n st) := by
  induction n generalizing st with
  | zero => exact .refl
  | succ n ih =>
    cases hqueue : st.scheduler.pendingQueue with
    | nil => simpa [scanPending, hqueue] using .refl
    | cons p queue =>
        have hturn := considerPending_turn hw hqueue
        simp only [scanPending, hqueue]
        exact .head hturn (ih (hturn.wf hw))

theorem sortPending_perm (queue : List PendingRequest) : (sortPending queue).Perm queue :=
  List.perm_insertionSort _ _

theorem schedulePending_turns (hw : st.scheduler.Wf) :
    ReflTransGen Turn st (schedulePending st) := by
  rw [schedulePending]
  split
  next => exact .refl
  next =>
    have hturn : Turn st (st.withScheduler { st.scheduler with
        pendingQueue := sortPending st.scheduler.pendingQueue }) :=
      .reorder (sortPending_perm _).symm
    exact .head hturn (scanPending_turns _ (hturn.wf hw))

theorem sortedSeqIds_perm (sequences : IdMap Sequence) :
    (sortedSeqIds sequences).Perm sequences.keys :=
  List.perm_insertionSort _ _

theorem sortedSeqIds_nodup (sequences : IdMap Sequence) : (sortedSeqIds sequences).Nodup := by
  rw [(sortedSeqIds_perm sequences).nodup_iff, ← Std.ExtTreeMap.map_fst_toList_eq_keys]
  exact IdMap.keys_nodup sequences

theorem mem_sortedSeqIds {sequences : IdMap Sequence} :
    id ∈ sortedSeqIds sequences ↔ ∃ seq, sequences[id]? = some seq := by
  rw [(sortedSeqIds_perm sequences).mem_iff, IdMap.mem_keys]

/-! ## What a pass keeps -/

/-- How a pass that began at `s` relates to its present locals. -/
structure ScheduledBy (s : Scheduler) (st : ScheduleState) : Prop where
  moves : Moves s st.scheduler
  nodup : st.output.seqIds.Nodup
  outDecode : ∀ seq ∈ st.output.decodeSequences,
    st.scheduler.decodeSequences[seq.seqId]? = some seq
  outPrefill : ∀ seq ∈ st.output.prefillSequences,
    st.scheduler.prefillSequences[seq.seqId]? = some seq
  decode : ∀ {id : Nat} {seq' : Sequence}, st.scheduler.decodeSequences[id]? = some seq' →
    ∃ seq, s.decodeSequences[id]? = some seq ∧
      (id ∈ st.output.seqIds → seq.Grown s.config seq') ∧ (id ∉ st.output.seqIds → seq' = seq)
  prefill : ∀ {id : Nat} {seq' : Sequence}, st.scheduler.prefillSequences[id]? = some seq' →
    s.prefillSequences[id]? = some seq' ∨
      id ∈ st.output.seqIds ∧ ∃ p ∈ s.pendingQueue, p.seqId = id ∧ ∃ blocks,
        blocks.length = p.request.promptBlocks s.config ∧ seq' = startedSequence p blocks
  pending : ∀ p ∈ st.scheduler.pendingQueue, p ∈ s.pendingQueue
  completed : ∀ r ∈ st.scheduler.completedRequests, r ∈ s.completedRequests ∨
    (∃ p ∈ s.pendingQueue, ∃ reason, r = (p.seqId, p.request.fail reason)) ∨
    ∃ seq reason, s.active r.1 = some seq ∧ r.2 = seq.request.fail reason

namespace ScheduledBy

theorem refl (s : Scheduler) : s.ScheduledBy { scheduler := s } where
  moves := .refl
  nodup := by simp [SchedulerOutput.seqIds]
  outDecode := by simp
  outPrefill := by simp
  decode h := ⟨_, h, by simp [SchedulerOutput.seqIds], fun _ => rfl⟩
  prefill h := .inl h
  pending _ h := h
  completed _ h := .inl h

theorem wf (h : s.ScheduledBy st) (hw : s.Wf) : st.scheduler.Wf := (Moves.evolves hw h.moves).wf

theorem config (h : s.ScheduledBy st) (hw : s.Wf) : st.scheduler.config = s.config :=
  (Moves.evolves hw h.moves).config

/-- The ids of the output are ids of active sequences. -/
theorem active_of_mem (h : s.ScheduledBy st) (hw : s.Wf) (hid : id ∈ st.output.seqIds) :
    ∃ seq, st.scheduler.active id = some seq := by
  obtain ⟨seq, hseq, rfl⟩ := List.mem_map.1 hid
  rcases List.mem_append.1 hseq with hseq | hseq
  · exact ⟨seq, Wf.active_of_prefill (h.outPrefill seq hseq)⟩
  · exact ⟨seq, (h.wf hw).active_of_decode (h.outDecode seq hseq)⟩

/-- A sequence not yet handled is the one the pass began with. -/
theorem active_of_not_mem (h : s.ScheduledBy st) (hw : s.Wf) (hid : id ∉ st.output.seqIds)
    (hseq : st.scheduler.active id = some seq) : s.active id = some seq := by
  rcases Option.or_eq_some_iff.1 hseq with hseq | ⟨-, hseq⟩
  · rcases h.prefill hseq with hold | ⟨hmem, -⟩
    · exact Wf.active_of_prefill hold
    · exact absurd hmem hid
  · obtain ⟨old, hold, -, hsame⟩ := h.decode hseq
    rw [hsame hid]
    exact hw.active_of_decode hold

theorem drop {reason : String} (h : s.ScheduledBy st) (hw : s.Wf) (hid : id ∉ st.output.seqIds)
    (hr : st.scheduler.retire id (.failed reason) = some s') :
    s.ScheduledBy (st.withScheduler s') := by
  obtain ⟨seq, hretired⟩ := retire_spec (h.wf hw) hr
  have hne (a : Sequence) (ha : a ∈ st.output.prefillSequences ++ st.output.decodeSequences) :
      id ≠ a.seqId := fun heq => hid (heq ▸ List.mem_map_of_mem ha)
  refine ⟨h.moves.tail (.retire (by exact trivial) hr), h.nodup, ?_, ?_, ?_, ?_, ?_, ?_⟩
  · intro a ha
    have hold := h.outDecode a ha
    rcases retire_cases hr with ⟨_, _, rfl⟩ | ⟨_, _, _, rfl⟩
    · simpa [IdMap.get_erase, hne a (List.mem_append_right _ ha)] using hold
    · exact hold
  · intro a ha
    have hold := h.outPrefill a ha
    rcases retire_cases hr with ⟨_, _, rfl⟩ | ⟨_, _, _, rfl⟩
    · exact hold
    · simpa [IdMap.get_erase, hne a (List.mem_append_left _ ha)] using hold
  · intro a b hb
    exact h.decode (hretired.of_decode hb)
  · intro a b hb
    exact h.prefill (hretired.of_prefill hb)
  · intro p hp
    rw [ScheduleState.withScheduler_scheduler, hretired.pending] at hp
    exact h.pending p hp
  · intro r hr
    rw [ScheduleState.withScheduler_scheduler, hretired.completed] at hr
    rcases List.mem_append.1 hr with hr | hr
    · exact h.completed r hr
    · rw [List.mem_singleton.1 hr]
      exact .inr (.inr ⟨seq, reason, h.active_of_not_mem hw hid hretired.was, rfl⟩)

private theorem seqIds_pushPrefill_perm (st : ScheduleState) (seq : Sequence) (n : Nat) :
    (st.pushPrefill seq n).output.seqIds.Perm (st.output.seqIds ++ [seq.seqId]) := by
  simp only [ScheduleState.pushPrefill, SchedulerOutput.seqIds, List.map_append, List.map_cons,
    List.map_nil, List.append_assoc]
  exact List.perm_append_comm.append_left _

private theorem nodup_push {ids : List SeqId} (h : ids.Nodup) (hid : id ∉ ids) :
    (ids ++ [id]).Nodup := by
  rw [List.nodup_append]
  refine ⟨h, by simp, ?_⟩
  rintro a ha b hb rfl
  exact hid (List.mem_singleton.1 hb ▸ ha)

/-- A decode sequence joins the output, grown when it needs to. -/
theorem handleDecode {seq' : Sequence} (h : s.ScheduledBy st) (hw : s.Wf)
    (hid : id ∉ st.output.seqIds) (hseq : st.scheduler.decodeSequences[id]? = some seq)
    (hgrown : seq.Grown st.scheduler.config seq') (hm : Moves st.scheduler s')
    (hdecode : ∀ a : Nat, s'.decodeSequences[a]? =
      if id = a then some seq' else st.scheduler.decodeSequences[a]?)
    (hprefill : s'.prefillSequences = st.scheduler.prefillSequences)
    (hpending : s'.pendingQueue = st.scheduler.pendingQueue)
    (hcompleted : s'.completedRequests = st.scheduler.completedRequests) :
    s.ScheduledBy ((st.withScheduler s').pushDecode seq') := by
  have hkey : seq'.seqId = id := by
    rw [← ((h.wf hw).decode_tag hseq).1]
    rcases hgrown with ⟨-, rfl⟩ | ⟨-, ref, rfl⟩ <;> rfl
  refine ⟨h.moves.trans hm, ?_, ?_, ?_, ?_, ?_, ?_, ?_⟩
  · have hnodup := nodup_push h.nodup hid
    simpa [ScheduleState.pushDecode, ScheduleState.withScheduler, SchedulerOutput.seqIds, hkey]
      using hnodup
  · intro a ha
    change s'.decodeSequences[a.seqId]? = some a
    rw [hdecode]
    rcases List.mem_append.1 ha with ha | ha
    · have hne : id ≠ a.seqId := fun heq =>
        hid (heq ▸ List.mem_map_of_mem (List.mem_append_right _ ha))
      rw [if_neg hne]
      exact h.outDecode a ha
    · rw [List.mem_singleton.1 ha, hkey, if_pos rfl]
  · intro a ha
    change s'.prefillSequences[a.seqId]? = some a
    rw [hprefill]
    exact h.outPrefill a ha
  · intro a b hb
    change s'.decodeSequences[a]? = some b at hb
    rw [hdecode] at hb
    simp only [ScheduleState.mem_seqIds_pushDecode, ScheduleState.withScheduler_output, hkey]
    by_cases ha : id = a
    · subst ha
      obtain ⟨old, hold, -, hsame⟩ := h.decode hseq
      obtain rfl := hsame hid
      rw [if_pos rfl] at hb
      rw [← Option.some.inj hb]
      exact ⟨seq, hold, fun _ => h.config hw ▸ hgrown, fun hn => absurd (.inr rfl) hn⟩
    · rw [if_neg ha] at hb
      obtain ⟨old, hold, hg, hsame⟩ := h.decode hb
      refine ⟨old, hold, ?_, fun hn => hsame fun hmem => hn (.inl hmem)⟩
      rintro (hmem | rfl)
      · exact hg hmem
      · exact absurd rfl ha
  · intro a b hb
    change s'.prefillSequences[a]? = some b at hb
    rw [hprefill] at hb
    exact (h.prefill hb).imp_right fun ⟨ha, hp⟩ =>
      ⟨ScheduleState.mem_seqIds_pushDecode.2 (.inl ha), hp⟩
  · intro p hp
    change p ∈ s'.pendingQueue at hp
    rw [hpending] at hp
    exact h.pending p hp
  · intro r hr
    change r ∈ s'.completedRequests at hr
    rw [hcompleted] at hr
    exact h.completed r hr

theorem keepPrefill (h : s.ScheduledBy st) (hw : s.Wf) (hid : id ∉ st.output.seqIds)
    (hseq : st.scheduler.prefillSequences[id]? = some seq) (n : Nat) :
    s.ScheduledBy (st.pushPrefill seq n) := by
  have hkey := ((h.wf hw).prefill_tag hseq).1
  refine ⟨h.moves, ?_, h.outDecode, ?_, ?_, ?_, h.pending, h.completed⟩
  · exact (seqIds_pushPrefill_perm st seq n).nodup_iff.2 (nodup_push h.nodup (hkey ▸ hid))
  · intro a ha
    rcases List.mem_append.1 ha with ha | ha
    · exact h.outPrefill a ha
    · rw [List.mem_singleton.1 ha, hkey]
      exact hseq
  · intro a b hb
    obtain ⟨old, hold, hgrown, hsame⟩ := h.decode hb
    have hne : a ≠ id := by
      rintro rfl
      have := (h.wf hw).nodup_parts.2.2 hseq
      simp only [ScheduleState.pushPrefill_scheduler] at hb
      simp [this] at hb
    simp only [ScheduleState.mem_seqIds_pushPrefill, hkey]
    exact ⟨old, hold, fun ha => hgrown (ha.resolve_right hne),
      fun ha => hsame fun hmem => ha (.inl hmem)⟩
  · intro a b hb
    exact (h.prefill hb).imp_right fun ⟨ha, hp⟩ =>
      ⟨ScheduleState.mem_seqIds_pushPrefill.2 (.inl ha), hp⟩

theorem reorder (h : s.ScheduledBy st) {queue : List PendingRequest}
    (hq : st.scheduler.pendingQueue.Perm queue) :
    s.ScheduledBy (st.withScheduler { st.scheduler with pendingQueue := queue }) where
  moves := h.moves.tail (.reorder hq)
  nodup := h.nodup
  outDecode := h.outDecode
  outPrefill := h.outPrefill
  decode := h.decode
  prefill := h.prefill
  pending p hp := h.pending p (hq.mem_iff.2 hp)
  completed := h.completed

theorem reject (h : s.ScheduledBy st) {p : PendingRequest} {queue : List PendingRequest}
    (reason : String) (hq : st.scheduler.pendingQueue = p :: queue) :
    s.ScheduledBy (st.withScheduler { st.scheduler with
      pendingQueue := queue
      completedRequests :=
        st.scheduler.completedRequests ++ [(p.seqId, p.request.fail reason)] }) where
  moves := h.moves.tail (.reject reason (hq ▸ .refl _))
  nodup := h.nodup
  outDecode := h.outDecode
  outPrefill := h.outPrefill
  decode := h.decode
  prefill := h.prefill
  pending a ha := h.pending a (by rw [hq]; exact List.mem_cons_of_mem _ ha)
  completed r hr := by
    rcases List.mem_append.1 hr with hr | hr
    · exact h.completed r hr
    · exact .inr (.inl ⟨p, h.pending p (by simp [hq]), reason, List.mem_singleton.1 hr⟩)

theorem start (h : s.ScheduledBy st) (hw : s.Wf) {p : PendingRequest}
    {queue : List PendingRequest} {kvCache : KVCacheManager}
    (hq : st.scheduler.pendingQueue = p :: queue)
    (hkv : st.scheduler.kvCache.Opened p.seqId (p.request.promptBlocks st.scheduler.config)
      kvCache) (n : Nat) :
    s.ScheduledBy ((st.withScheduler { st.scheduler with
        pendingQueue := queue
        kvCache := kvCache
        prefillSequences := st.scheduler.prefillSequences.insert p.seqId
          (startedSequence p (st.scheduler.kvCache.blockPool.freeList.take
            (p.request.promptBlocks st.scheduler.config))) }).pushPrefill
      (startedSequence p (st.scheduler.kvCache.blockPool.freeList.take
        (p.request.promptBlocks st.scheduler.config))) n) := by
  have hp : p ∈ st.scheduler.pendingQueue := by simp [hq]
  have hnone := (h.wf hw).active_none_of_pending hp
  have hnew : p.seqId ∉ st.output.seqIds := by
    intro hmem
    obtain ⟨seq, hseq⟩ := h.active_of_mem hw hmem
    simp [hnone] at hseq
  refine ⟨h.moves.tail (.start (hq ▸ .refl _) hkv), ?_, h.outDecode, ?_, ?_, ?_, ?_, h.completed⟩
  · exact (seqIds_pushPrefill_perm _ _ _).nodup_iff.2 (nodup_push h.nodup hnew)
  · intro a ha
    change (st.scheduler.prefillSequences.insert p.seqId _)[a.seqId]? = some a
    rw [IdMap.get_insert]
    rcases List.mem_append.1 ha with ha | ha
    · have hne : p.seqId ≠ a.seqId := fun heq =>
        hnew (heq ▸ List.mem_map_of_mem (List.mem_append_left _ ha))
      rw [if_neg hne]
      exact h.outPrefill a ha
    · rw [List.mem_singleton.1 ha, if_pos (by rfl)]
  · intro a b hb
    obtain ⟨old, hold, hgrown, hsame⟩ := h.decode hb
    have hne : a ≠ p.seqId := by
      rintro rfl
      have hactive := (h.wf hw).active_of_decode hb
      simp [hnone] at hactive
    simp only [ScheduleState.mem_seqIds_pushPrefill]
    exact ⟨old, hold, fun ha => hgrown (ha.resolve_right hne),
      fun ha => hsame fun hmem => ha (.inl hmem)⟩
  · intro a b hb
    change (st.scheduler.prefillSequences.insert p.seqId _)[a]? = some b at hb
    rw [IdMap.get_insert] at hb
    split at hb
    next ha =>
      refine .inr ⟨ScheduleState.mem_seqIds_pushPrefill.2 (.inr ha.symm), p, h.pending p hp, ha,
        st.scheduler.kvCache.blockPool.freeList.take
          (p.request.promptBlocks st.scheduler.config), ?_, (Option.some.inj hb).symm⟩
      rw [List.length_take_of_le hkv.enough, h.config hw]
    next =>
      exact (h.prefill hb).imp_right fun ⟨ha, hp⟩ =>
        ⟨ScheduleState.mem_seqIds_pushPrefill.2 (.inl ha), hp⟩
  · intro a ha
    exact h.pending a (by rw [hq]; exact List.mem_cons_of_mem _ ha)

theorem turn (h : s.ScheduledBy st) (hw : s.Wf) (ht : Turn st st') : s.ScheduledBy st' := by
  cases ht with
  | drop hid hr => exact h.drop hw hid hr
  | keepDecode hid _ hseq henough =>
      refine h.handleDecode hw hid hseq (.inl ⟨henough, rfl⟩) .refl ?_ rfl rfl rfl
      intro a
      split
      next ha => rw [← ha, hseq]
      next => rfl
  | growDecode hid _ hseq hneeds hkv =>
      exact h.handleDecode hw hid hseq (.inr ⟨hneeds, _, rfl⟩) (.single (.grow hseq hkv))
        (IdMap.get_insert _ _ · _) rfl rfl rfl
  | keepPrefill hid _ hseq => exact h.keepPrefill hw hid hseq _
  | reorder hq => exact h.reorder hq
  | reject reason hq => exact h.reject reason hq
  | start _ hq hkv => exact h.start hw hq hkv _

theorem turns (h : s.ScheduledBy st) (hw : s.Wf) (ht : ReflTransGen Turn st st') :
    s.ScheduledBy st' := by
  induction ht with
  | refl => exact h
  | tail _ ht ih => exact ih.turn hw ht

end ScheduledBy

/-! ## The whole pass -/

/-- The locals of `schedule` when it begins, and after each of its loops. -/
def passStart (s : Scheduler) : ScheduleState := { scheduler := s.updateMemoryPressure }

def decodePass (s : Scheduler) : ScheduleState :=
  scheduleDecode s.passStart.scheduler.decodeSeqIds s.passStart

def prefillPass (s : Scheduler) : ScheduleState :=
  schedulePrefill s.decodePass.scheduler.prefillCandidates s.decodePass

def pass (s : Scheduler) : ScheduleState := schedulePending s.prefillPass

theorem schedule_eq (s : Scheduler) :
    s.schedule = ({ s.pass.output with totalTokens := s.pass.totalTokens }, s.pass.scheduler) :=
  rfl

theorem wf_passStart (hw : s.Wf) : s.passStart.scheduler.Wf := (Move.pressure s _).wf hw

theorem decodePass_turns (hw : s.Wf) : ReflTransGen Turn s.passStart s.decodePass :=
  scheduleDecode_turns _ (wf_passStart hw) (sortedSeqIds_nodup _) fun _ hid =>
    ⟨mem_sortedSeqIds.1 hid, by simp [SchedulerOutput.seqIds, passStart]⟩

theorem scheduleDecode_prefillOutput (ids : List SeqId) (st : ScheduleState) :
    (scheduleDecode ids st).output.prefillSequences = st.output.prefillSequences := by
  induction ids generalizing st with
  | nil => rfl
  | cons id rest ih =>
    simp only [scheduleDecode]
    repeat' split
    all_goals first | rfl | exact ih _

theorem decodePass_spec (hw : s.Wf) : s.passStart.scheduler.ScheduledBy s.decodePass :=
  (ScheduledBy.refl _).turns (wf_passStart hw) (decodePass_turns hw)

theorem prefillPass_turns_of_decodePass (hw : s.Wf) :
    ReflTransGen Turn s.decodePass s.prefillPass := by
  have hby := decodePass_spec hw
  have hw' := hby.wf (wf_passStart hw)
  refine schedulePrefill_turns _ hw' (sortedSeqIds_nodup _) fun id hid => ?_
  obtain ⟨seq, hseq⟩ := mem_sortedSeqIds.1 hid
  refine ⟨⟨seq, hseq⟩, fun hmem => ?_⟩
  -- so far the output holds decode sequences only
  have hnone : s.decodePass.output.prefillSequences = [] := scheduleDecode_prefillOutput _ _
  rw [SchedulerOutput.seqIds, hnone, List.nil_append] at hmem
  obtain ⟨other, hother, rfl⟩ := List.mem_map.1 hmem
  have hdecode := hby.outDecode other hother
  simp [hw'.nodup_parts.2.2 hseq] at hdecode

theorem prefillPass_turns (hw : s.Wf) : ReflTransGen Turn s.passStart s.prefillPass :=
  (decodePass_turns hw).trans (prefillPass_turns_of_decodePass hw)

theorem prefillPass_spec (hw : s.Wf) : s.passStart.scheduler.ScheduledBy s.prefillPass :=
  (ScheduledBy.refl _).turns (wf_passStart hw) (prefillPass_turns hw)

theorem pass_turns_of_decodePass (hw : s.Wf) : ReflTransGen Turn s.decodePass s.pass :=
  (prefillPass_turns_of_decodePass hw).trans
    (schedulePending_turns ((prefillPass_spec hw).wf (wf_passStart hw)))

theorem pass_turns (hw : s.Wf) : ReflTransGen Turn s.passStart s.pass :=
  (decodePass_turns hw).trans (pass_turns_of_decodePass hw)

theorem pass_spec (hw : s.Wf) : s.passStart.scheduler.ScheduledBy s.pass :=
  (ScheduledBy.refl _).turns (wf_passStart hw) (pass_turns hw)

theorem schedule_moves (hw : s.Wf) : Moves s s.schedule.2 :=
  .head (.pressure s _) (pass_spec hw).moves

end Scheduler

end PagedServing
