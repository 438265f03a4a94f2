import PagedServing.KvCache.Ownership
import PagedServing.Scheduler.Schedule

/-! # Moves of a scheduler

Every operation is a sequence of elementary moves between the four containers.
A move says all that can change; what holds of every run follows from the moves.
-/

namespace PagedServing

/-- The fields that tie a sequence to its place are those of `seq`. -/
structure Sequence.SamePlace (seq seq' : Sequence) : Prop where
  seqId : seq'.seqId = seq.seqId
  logicalBlocks : seq'.logicalBlocks = seq.logicalBlocks
  state : seq'.request.state = seq.request.state
  requestId : seq'.request.id = seq.request.id

namespace Scheduler

variable {s s' : Scheduler} {id : SeqId} {seq seq' : Sequence}

def active (s : Scheduler) (id : SeqId) : Option Sequence :=
  s.prefillSequences[id]?.or s.decodeSequences[id]?

/-- Every id the scheduler holds, place by place. -/
def ids (s : Scheduler) : List SeqId :=
  s.pendingQueue.map (·.seqId) ++ s.prefillSequences.keys ++ s.decodeSequences.keys
    ++ s.completedRequests.map (·.1)

def numUnfinished (s : Scheduler) : Nat := s.pendingQueue.length + s.numActiveSequences

/-- The sequence a pending request turns into, with the blocks it is given. -/
def startedSequence (p : PendingRequest) (blocks : List BlockIdx) : Sequence :=
  { Sequence.new p.seqId { p.request with state := .prefill } with
    logicalBlocks := blocks.map PhysicalBlockRef.mk }

inductive Move : Scheduler → Scheduler → Prop
  | pressure (s : Scheduler) (b : Bool) : Move s { s with underMemoryPressure := b }
  | reorder {s : Scheduler} {queue : List PendingRequest} (h : s.pendingQueue.Perm queue) :
      Move s { s with pendingQueue := queue }
  | reject {s : Scheduler} {p : PendingRequest} {queue : List PendingRequest} (reason : String)
      (h : s.pendingQueue.Perm (p :: queue)) :
      Move s { s with
        pendingQueue := queue
        completedRequests := s.completedRequests ++ [(p.seqId, p.request.fail reason)] }
  | start {s : Scheduler} {p : PendingRequest} {queue : List PendingRequest}
      {kvCache : KVCacheManager} {n : Nat} (h : s.pendingQueue.Perm (p :: queue))
      (hkv : s.kvCache.Opened p.seqId n kvCache) :
      Move s { s with
        pendingQueue := queue
        kvCache := kvCache
        prefillSequences := s.prefillSequences.insert p.seqId
          (startedSequence p (s.kvCache.blockPool.freeList.take n)) }
  | toDecode {s : Scheduler} {id : SeqId} {seq : Sequence}
      (h : s.prefillSequences[id]? = some seq) :
      Move s { s with
        prefillSequences := s.prefillSequences.erase id
        decodeSequences := s.decodeSequences.insert id
          { seq with request := { seq.request with state := .decode } } }
  | grow {s : Scheduler} {id : SeqId} {seq : Sequence} {ref : PhysicalBlockRef}
      {kvCache : KVCacheManager} (h : s.decodeSequences[id]? = some seq)
      (hkv : s.kvCache.Extended id ref kvCache) :
      Move s { s with
        kvCache := kvCache
        decodeSequences := s.decodeSequences.insert id
          { seq with logicalBlocks := seq.logicalBlocks ++ [ref] } }
  | editPrefill {s : Scheduler} {id : SeqId} {seq seq' : Sequence}
      (h : s.prefillSequences[id]? = some seq) (he : seq.SamePlace seq') :
      Move s { s with prefillSequences := s.prefillSequences.insert id seq' }
  | editDecode {s : Scheduler} {id : SeqId} {seq seq' : Sequence}
      (h : s.decodeSequences[id]? = some seq) (he : seq.SamePlace seq') :
      Move s { s with decodeSequences := s.decodeSequences.insert id seq' }
  | retire {s s' : Scheduler} {id : SeqId} {state : RequestState} (ht : state.IsTerminal)
      (h : s.retire id state = some s') : Move s s'

abbrev Moves : Scheduler → Scheduler → Prop := Relation.ReflTransGen Move

theorem retire_cases {state : RequestState} (h : s.retire id state = some s') :
    (∃ seq, s.decodeSequences[id]? = some seq ∧ s' = { s with
      decodeSequences := s.decodeSequences.erase id
      kvCache := s.kvCache.freeSequence id
      completedRequests := s.completedRequests ++ [(id, { seq.request with state := state })] }) ∨
    (s.decodeSequences[id]? = none ∧ ∃ seq, s.prefillSequences[id]? = some seq ∧ s' = { s with
      prefillSequences := s.prefillSequences.erase id
      kvCache := s.kvCache.freeSequence id
      completedRequests := s.completedRequests ++ [(id, { seq.request with state := state })] }) := by
  simp only [retire] at h
  split at h
  next seq hseq => exact .inl ⟨seq, hseq, (Option.some.inj h).symm⟩
  next hnone =>
    split at h
    next seq hseq => exact .inr ⟨hnone, seq, hseq, (Option.some.inj h).symm⟩
    next => simp at h

theorem retire_eq_none {state : RequestState} (h : s.retire id state = none) :
    s.active id = none := by
  simp only [retire] at h
  split at h
  next => simp at h
  next hdecode =>
    split at h
    next => simp at h
    next hprefill => simp [active, hdecode, hprefill]

/-! ## Well-formed schedulers -/

/-- Each id in one place, tags that agree with the places, and a block table for
each active sequence that is also its page table. -/
structure Wf (s : Scheduler) : Prop where
  ids_nodup : s.ids.Nodup
  ids_lt : ∀ id ∈ s.ids, id < s.nextSeqId
  pending_tag : ∀ p ∈ s.pendingQueue, p.request.state = .pending
  prefill_tag : ∀ {id : Nat} {seq : Sequence}, s.prefillSequences[id]? = some seq →
    seq.seqId = id ∧ seq.request.state = .prefill
  decode_tag : ∀ {id : Nat} {seq : Sequence}, s.decodeSequences[id]? = some seq →
    seq.seqId = id ∧ seq.request.state = .decode
  completed_tag : ∀ r ∈ s.completedRequests, r.2.state.IsTerminal
  kvCache : s.kvCache.Sound
  poolSize : s.kvCache.blockPool.blocks.length = s.config.maxNumBlocks.toNat
  blockSize : s.kvCache.blockPool.blockSize = s.config.blockSize.toNat
  tables : ∀ id : Nat, s.kvCache.pageTables[id]?.map (·.logicalBlocks)
    = (s.active id).map (·.logicalBlocks)

theorem wf_new (config : EngineConfig) : (new config).Wf where
  ids_nodup := by simp [ids, new]
  ids_lt := by simp [ids, new]
  pending_tag := by simp [new]
  prefill_tag := by simp [new]
  decode_tag := by simp [new]
  completed_tag := by simp [new]
  kvCache := KVCacheManager.sound_new _ (UInt32.toNat_lt _)
  poolSize := by simp [new, KVCacheManager.new, BlockPool.new]
  blockSize := rfl
  tables := by simp [new, KVCacheManager.new, active]

namespace Wf

theorem nodup_parts (h : s.Wf) :
    (s.pendingQueue.map (·.seqId)).Nodup ∧
      (∀ id ∈ s.pendingQueue.map (·.seqId), s.prefillSequences[id]? = none
        ∧ s.decodeSequences[id]? = none ∧ id ∉ s.completedRequests.map (·.1)) ∧
      ∀ {id : Nat} {seq : Sequence}, s.prefillSequences[id]? = some seq →
        s.decodeSequences[id]? = none := by
  have hnodup := h.ids_nodup
  simp only [ids, List.nodup_append, List.mem_append] at hnodup
  obtain ⟨⟨⟨hpending, -, hpf⟩, -, hdecode⟩, -, hdone⟩ := hnodup
  refine ⟨hpending, ?_, ?_⟩
  · intro id hid
    refine ⟨?_, ?_, fun hmem => hdone id (.inl (.inl hid)) id hmem rfl⟩
    · rw [← IdMap.contains_eq_false_iff, Bool.eq_false_iff]
      intro hc
      obtain ⟨v, hv⟩ := IdMap.contains_eq_true_iff.1 hc
      exact hpf id hid id (IdMap.mem_keys.2 ⟨v, hv⟩) rfl
    · rw [← IdMap.contains_eq_false_iff, Bool.eq_false_iff]
      intro hc
      obtain ⟨v, hv⟩ := IdMap.contains_eq_true_iff.1 hc
      exact hdecode id (.inl hid) id (IdMap.mem_keys.2 ⟨v, hv⟩) rfl
  · intro id seq hseq
    rw [← IdMap.contains_eq_false_iff, Bool.eq_false_iff]
    intro hc
    obtain ⟨v, hv⟩ := IdMap.contains_eq_true_iff.1 hc
    exact hdecode id (.inr (IdMap.mem_keys.2 ⟨seq, hseq⟩)) id (IdMap.mem_keys.2 ⟨v, hv⟩) rfl

theorem active_of_prefill (h : s.prefillSequences[id]? = some seq) : s.active id = some seq := by
  simp [active, h]

theorem active_of_decode (hw : s.Wf) (h : s.decodeSequences[id]? = some seq) :
    s.active id = some seq := by
  cases hp : s.prefillSequences[id]? with
  | none => simp [active, hp, h]
  | some _ => simp [hw.nodup_parts.2.2 hp] at h

/-- A sequence is active exactly when it has a page table, with the same blocks. -/
theorem pageTable_of_active (hw : s.Wf) (h : s.active id = some seq) :
    ∃ table, s.kvCache.pageTables[id]? = some table ∧ table.logicalBlocks = seq.logicalBlocks := by
  have := hw.tables id
  rw [h, Option.map_some, Option.map_eq_some_iff] at this
  exact this

theorem pageTable_none (hw : s.Wf) (h : s.active id = none) :
    s.kvCache.pageTables[id]? = none := by
  have := hw.tables id
  rwa [h, Option.map_none, Option.map_eq_none_iff] at this

/-- The ledger entry of an active sequence. -/
theorem exists_table (hw : s.Wf) (h : s.active id = some seq) :
    ∃ table, s.kvCache.pageTables[id]? = some table ∧ table.getBlockTable = seq.getBlockTable := by
  obtain ⟨table, htable, hblocks⟩ := hw.pageTable_of_active h
  exact ⟨table, htable, by rw [PageTable.getBlockTable, hblocks, Sequence.getBlockTable]⟩

theorem blockTable_nodup (hw : s.Wf) (h : s.active id = some seq) : seq.getBlockTable.Nodup := by
  obtain ⟨table, htable, heq⟩ := hw.exists_table h
  exact heq ▸ hw.kvCache.ledger.units_nodup htable

theorem blockTable_disjoint {id' : SeqId} {seq' : Sequence} (hw : s.Wf)
    (h : s.active id = some seq) (h' : s.active id' = some seq') (hne : id ≠ id') :
    seq.getBlockTable.Disjoint seq'.getBlockTable := by
  obtain ⟨table, htable, heq⟩ := hw.exists_table h
  obtain ⟨table', htable', heq'⟩ := hw.exists_table h'
  exact heq ▸ heq' ▸ hw.kvCache.ledger.disjoint htable htable' hne

/-- Distinct active sequences list no block twice. -/
theorem blockTables_nodup (hw : s.Wf) {seqs : List Sequence}
    (hactive : ∀ seq ∈ seqs, s.active seq.seqId = some seq) (hnodup : (seqs.map (·.seqId)).Nodup) :
    (seqs.flatMap (·.getBlockTable)).Nodup := by
  rw [List.nodup_flatMap]
  refine ⟨fun seq hseq => hw.blockTable_nodup (hactive seq hseq), ?_⟩
  exact (List.pairwise_map.1 hnodup).imp_of_mem fun ha hb hne =>
    hw.blockTable_disjoint (hactive _ ha) (hactive _ hb) hne

theorem active_none_of_pending (hw : s.Wf) {p : PendingRequest} (h : p ∈ s.pendingQueue) :
    s.active p.seqId = none := by
  obtain ⟨hprefill, hdecode, -⟩ := hw.nodup_parts.2.1 p.seqId (List.mem_map_of_mem h)
  simp [active, hprefill, hdecode]

theorem completed_nodup (hw : s.Wf) : (s.completedRequests.map (·.1)).Nodup :=
  (List.nodup_append.1 hw.ids_nodup).2.1

theorem mem_ids_of_active (h : s.active id = some seq) :
    id ∈ s.pendingQueue.map (·.seqId) ++ s.prefillSequences.keys ++ s.decodeSequences.keys := by
  simp only [List.mem_append, IdMap.mem_keys]
  rcases Option.or_eq_some_iff.1 h with h | ⟨-, h⟩
  · exact .inl (.inr ⟨seq, h⟩)
  · exact .inr ⟨seq, h⟩

/-- What is terminal is not active. -/
theorem active_none_of_completed (hw : s.Wf) {r : Request} (h : (id, r) ∈ s.completedRequests) :
    s.active id = none := by
  cases ha : s.active id with
  | none => rfl
  | some seq =>
      exact absurd rfl ((List.nodup_append.1 hw.ids_nodup).2.2 id (mem_ids_of_active ha) id
        (List.mem_map.2 ⟨(id, r), h, rfl⟩))

/-- With no active sequence every block is free. -/
theorem pageTables_of_idle (hw : s.Wf) (h : s.numActiveSequences = 0) :
    s.kvCache.pageTables = ∅ := by
  rw [numActiveSequences, Nat.add_eq_zero_iff, IdMap.size_eq_zero_iff, IdMap.size_eq_zero_iff] at h
  rw [IdMap.eq_empty_iff]
  intro id
  exact hw.pageTable_none (by simp [active, h.1, h.2])

theorem usedBlocks_of_idle (hw : s.Wf) (h : s.numActiveSequences = 0) :
    s.kvCache.getMemoryStats.usedBlocks = 0 := by
  simp [hw.kvCache.usedBlocks_eq, hw.pageTables_of_idle h]

end Wf

/-! ## What a move keeps -/

theorem Move.config_eq (h : Move s s') : s'.config = s.config := by
  cases h with
  | retire _ h => rcases retire_cases h with ⟨_, _, rfl⟩ | ⟨_, _, _, rfl⟩ <;> rfl
  | _ => rfl

theorem Move.nextSeqId_eq (h : Move s s') : s'.nextSeqId = s.nextSeqId := by
  cases h with
  | retire _ h => rcases retire_cases h with ⟨_, _, rfl⟩ | ⟨_, _, _, rfl⟩ <;> rfl
  | _ => rfl

/-- Terminal requests stay where they are. -/
theorem Move.completed_prefix (h : Move s s') : s.completedRequests <+: s'.completedRequests := by
  cases h with
  | retire _ h => rcases retire_cases h with ⟨_, _, rfl⟩ | ⟨_, _, _, rfl⟩ <;> simp
  | _ => simp

/-- No move loses an id, duplicates one or makes one up. -/
theorem Move.ids_perm (hw : s.Wf) (h : Move s s') : s'.ids.Perm s.ids := by
  rw [List.perm_iff_count]
  intro a
  cases h with
  | pressure => rfl
  | reorder h =>
      have := (h.map (·.seqId)).count_eq a
      simp only [ids, List.count_append]
      omega
  | reject reason h =>
      have := (h.map (·.seqId)).count_eq a
      simp only [ids, List.count_append, List.map_append, List.map_cons, List.map_nil,
        List.count_cons, List.count_nil] at this ⊢
      omega
  | @start p _ _ n h hkv =>
      have hmem : p.seqId ∈ s.pendingQueue.map (·.seqId) :=
        (h.map (·.seqId)).mem_iff.2 (by simp)
      have hnew := (hw.nodup_parts.2.1 _ hmem).1
      have := (h.map (·.seqId)).count_eq a
      have := (IdMap.keys_insert_perm (v := startedSequence p
        (s.kvCache.blockPool.freeList.take n)) hnew).count_eq a
      simp only [ids, List.count_append, List.map_cons, List.count_cons] at *
      omega
  | @toDecode id seq h =>
      have hnew := hw.nodup_parts.2.2 h
      have := (IdMap.keys_erase_perm h).count_eq a
      have := (IdMap.keys_insert_perm (v :=
        { seq with request := { seq.request with state := .decode } }) hnew).count_eq a
      simp only [ids, List.count_append, List.count_cons] at *
      omega
  | grow h _ =>
      simp only [ids, List.count_append]
      rw [(IdMap.keys_replace_perm h).count_eq a]
  | editPrefill h _ =>
      simp only [ids, List.count_append]
      rw [(IdMap.keys_replace_perm h).count_eq a]
  | editDecode h _ =>
      simp only [ids, List.count_append]
      rw [(IdMap.keys_replace_perm h).count_eq a]
  | retire _ h =>
      rcases retire_cases h with ⟨seq, hseq, rfl⟩ | ⟨-, seq, hseq, rfl⟩
      all_goals
        have := (IdMap.keys_erase_perm hseq).count_eq a
        simp only [ids, List.count_append, List.map_append, List.map_cons, List.map_nil,
          List.count_cons, List.count_nil] at *
        omega

/-- No move takes in a request. -/
theorem Move.numUnfinished_le (hw : s.Wf) (h : Move s s') :
    s'.numUnfinished ≤ s.numUnfinished := by
  cases h with
  | pressure => rfl
  | reorder h =>
      have := h.length_eq
      simp only [numUnfinished, numActiveSequences] at *
      omega
  | reject reason h =>
      have := h.length_eq
      simp only [numUnfinished, numActiveSequences, List.length_cons] at *
      omega
  | @start p _ _ n h hkv =>
      have hmem : p.seqId ∈ s.pendingQueue.map (·.seqId) :=
        (h.map (·.seqId)).mem_iff.2 (by simp)
      have := h.length_eq
      have := IdMap.size_insert_new (v := startedSequence p
        (s.kvCache.blockPool.freeList.take n)) (hw.nodup_parts.2.1 _ hmem).1
      simp only [numUnfinished, numActiveSequences, List.length_cons] at *
      omega
  | @toDecode id seq h =>
      have := IdMap.size_erase_old h
      have := IdMap.size_insert_new (v :=
        { seq with request := { seq.request with state := .decode } }) (hw.nodup_parts.2.2 h)
      simp only [numUnfinished, numActiveSequences] at *
      omega
  | grow h _ => simp only [numUnfinished, numActiveSequences, IdMap.size_insert_old h, le_refl]
  | editPrefill h _ =>
      simp only [numUnfinished, numActiveSequences, IdMap.size_insert_old h, le_refl]
  | editDecode h _ =>
      simp only [numUnfinished, numActiveSequences, IdMap.size_insert_old h, le_refl]
  | retire _ h =>
      rcases retire_cases h with ⟨seq, hseq, rfl⟩ | ⟨-, seq, hseq, rfl⟩
      all_goals
        have := IdMap.size_erase_old hseq
        simp only [numUnfinished, numActiveSequences] at *
        omega

/-! ## Well-formedness is kept -/

/-- The effect of a retirement on the active sequences and the block manager. -/
structure Retired (s : Scheduler) (id : SeqId) (seq : Sequence) (state : RequestState)
    (s' : Scheduler) : Prop where
  was : s.active id = some seq
  prefill : ∀ a : Nat,
    s'.prefillSequences[a]? = if id = a then none else s.prefillSequences[a]?
  decode : ∀ a : Nat,
    s'.decodeSequences[a]? = if id = a then none else s.decodeSequences[a]?
  kvCache : s'.kvCache = s.kvCache.freeSequence id
  pending : s'.pendingQueue = s.pendingQueue
  completed : s'.completedRequests =
    s.completedRequests ++ [(id, { seq.request with state := state })]

theorem retire_spec (hw : s.Wf) {state : RequestState} (h : s.retire id state = some s') :
    ∃ seq, s.Retired id seq state s' := by
  rcases retire_cases h with ⟨seq, hseq, rfl⟩ | ⟨hnone, seq, hseq, rfl⟩
  · refine ⟨seq, hw.active_of_decode hseq, ?_, IdMap.get_erase _ _, rfl, rfl, rfl⟩
    intro a
    split
    next ha =>
      subst ha
      cases hp : s.prefillSequences[id]? with
      | none => rfl
      | some _ => simp [hw.nodup_parts.2.2 hp] at hseq
    next => rfl
  · refine ⟨seq, Wf.active_of_prefill hseq, IdMap.get_erase _ _, ?_, rfl, rfl, rfl⟩
    intro a
    split
    next ha => rw [← ha, hnone]
    next => rfl

namespace Retired

variable {state : RequestState}

theorem active (h : s.Retired id seq state s') (a : Nat) :
    s'.active a = if id = a then none else s.active a := by
  rw [Scheduler.active, h.prefill, h.decode]
  split <;> rfl

theorem of_prefill (h : s.Retired id seq state s') {a : Nat} {b : Sequence}
    (hb : s'.prefillSequences[a]? = some b) : s.prefillSequences[a]? = some b := by
  rw [h.prefill] at hb
  split at hb
  next => simp at hb
  next => exact hb

theorem of_decode (h : s.Retired id seq state s') {a : Nat} {b : Sequence}
    (hb : s'.decodeSequences[a]? = some b) : s.decodeSequences[a]? = some b := by
  rw [h.decode] at hb
  split at hb
  next => simp at hb
  next => exact hb

end Retired

namespace Wf

/-- The part of well-formedness that only looks at requests and tables. -/
private theorem of_parts (hw : s.Wf) (h : Move s s')
    (pending_tag : ∀ p ∈ s'.pendingQueue, p.request.state = .pending)
    (prefill_tag : ∀ {id : Nat} {seq : Sequence}, s'.prefillSequences[id]? = some seq →
      seq.seqId = id ∧ seq.request.state = .prefill)
    (decode_tag : ∀ {id : Nat} {seq : Sequence}, s'.decodeSequences[id]? = some seq →
      seq.seqId = id ∧ seq.request.state = .decode)
    (completed_tag : ∀ r ∈ s'.completedRequests, r.2.state.IsTerminal)
    (kvCache : s'.kvCache.Sound)
    (pool : s'.kvCache.blockPool.blocks.length = s.kvCache.blockPool.blocks.length ∧
      s'.kvCache.blockPool.blockSize = s.kvCache.blockPool.blockSize)
    (tables : ∀ id : Nat, s'.kvCache.pageTables[id]?.map (·.logicalBlocks)
      = (s'.active id).map (·.logicalBlocks)) : s'.Wf where
  ids_nodup := (h.ids_perm hw).nodup_iff.2 hw.ids_nodup
  ids_lt id hid := by
    rw [h.nextSeqId_eq]
    exact hw.ids_lt id ((h.ids_perm hw).mem_iff.1 hid)
  pending_tag := pending_tag
  prefill_tag := prefill_tag
  decode_tag := decode_tag
  completed_tag := completed_tag
  kvCache := kvCache
  poolSize := by rw [pool.1, h.config_eq, hw.poolSize]
  blockSize := by rw [pool.2, h.config_eq, hw.blockSize]
  tables := tables

private theorem active_insert_decode (hw : s.Wf) {old new : Sequence}
    (h : s.decodeSequences[id]? = some old) (hp : s'.prefillSequences = s.prefillSequences)
    (hd : s'.decodeSequences = s.decodeSequences.insert id new) (a : Nat) :
    s'.active a = if id = a then some new else s.active a := by
  by_cases ha : id = a
  · subst ha
    cases hp' : s.prefillSequences[id]? with
    | none => simp [active, hp, hp', hd]
    | some _ => simp [hw.nodup_parts.2.2 hp'] at h
  · simp [active, hp, hd, ha, IdMap.get_insert]

theorem start (hw : s.Wf) {p : PendingRequest} {queue : List PendingRequest}
    {kvCache : KVCacheManager} {n : Nat} (h : s.pendingQueue.Perm (p :: queue))
    (hkv : s.kvCache.Opened p.seqId n kvCache) :
    { s with
      pendingQueue := queue
      kvCache := kvCache
      prefillSequences := s.prefillSequences.insert p.seqId
        (startedSequence p (s.kvCache.blockPool.freeList.take n)) }.Wf := by
  have hp : p ∈ s.pendingQueue := h.mem_iff.2 (by simp)
  have hnone := hw.active_none_of_pending hp
  refine hw.of_parts (.start h hkv) ?_ ?_ hw.decode_tag hw.completed_tag
    (hkv.sound (hw.pageTable_none hnone) hw.kvCache) ⟨hkv.taken.length, hkv.taken.blockSize⟩ ?_
  · intro q hq
    exact hw.pending_tag q (h.mem_iff.2 (List.mem_cons_of_mem _ hq))
  · intro a b hb
    simp only [IdMap.get_insert] at hb
    split at hb
    next ha =>
      subst ha
      rw [← Option.some.inj hb]
      exact ⟨rfl, rfl⟩
    next => exact hw.prefill_tag hb
  · intro a
    simp only [active, hkv.pageTables, IdMap.get_insert]
    split
    next => rfl
    next => exact hw.tables a

theorem toDecode (hw : s.Wf) (h : s.prefillSequences[id]? = some seq) :
    { s with
      prefillSequences := s.prefillSequences.erase id
      decodeSequences := s.decodeSequences.insert id
        { seq with request := { seq.request with state := .decode } } }.Wf := by
  refine hw.of_parts (.toDecode h) hw.pending_tag ?_ ?_ hw.completed_tag hw.kvCache ⟨rfl, rfl⟩ ?_
  · intro a b hb
    simp only [IdMap.get_erase] at hb
    split at hb
    next => simp at hb
    next => exact hw.prefill_tag hb
  · intro a b hb
    simp only [IdMap.get_insert] at hb
    split at hb
    next ha =>
      subst ha
      rw [← Option.some.inj hb]
      exact ⟨(hw.prefill_tag h).1, rfl⟩
    next => exact hw.decode_tag hb
  · intro a
    rw [hw.tables a]
    by_cases ha : id = a
    · subst ha
      simp [active, h]
    · simp [active, ha, IdMap.get_insert, IdMap.get_erase]

theorem grow (hw : s.Wf) {ref : PhysicalBlockRef} {kvCache : KVCacheManager}
    (h : s.decodeSequences[id]? = some seq) (hkv : s.kvCache.Extended id ref kvCache) :
    { s with
      kvCache := kvCache
      decodeSequences := s.decodeSequences.insert id
        { seq with logicalBlocks := seq.logicalBlocks ++ [ref] } }.Wf := by
  obtain ⟨table, htable, hinsert⟩ := hkv.pageTables
  refine hw.of_parts (.grow h hkv) hw.pending_tag hw.prefill_tag ?_ hw.completed_tag
    (hkv.sound hw.kvCache) ⟨hkv.taken.length, hkv.taken.blockSize⟩ ?_
  · intro a b hb
    simp only [IdMap.get_insert] at hb
    split at hb
    next ha =>
      subst ha
      rw [← Option.some.inj hb]
      exact ⟨(hw.decode_tag h).1, (hw.decode_tag h).2⟩
    next => exact hw.decode_tag hb
  · intro a
    refine .trans ?_ (congrArg _ (active_insert_decode hw h (by rfl) (by rfl) a).symm)
    rw [hinsert, IdMap.get_insert]
    split
    next ha =>
      subst ha
      have := hw.tables id
      rw [htable, hw.active_of_decode h] at this
      simpa [PageTable.addBlock] using this
    next => exact hw.tables a

theorem editPrefill (hw : s.Wf) (h : s.prefillSequences[id]? = some seq)
    (he : seq.SamePlace seq') :
    { s with prefillSequences := s.prefillSequences.insert id seq' }.Wf := by
  refine hw.of_parts (.editPrefill h he) hw.pending_tag ?_ hw.decode_tag hw.completed_tag
    hw.kvCache ⟨rfl, rfl⟩ ?_
  · intro a b hb
    simp only [IdMap.get_insert] at hb
    split at hb
    next ha =>
      subst ha
      rw [← Option.some.inj hb, he.seqId, he.state]
      exact hw.prefill_tag h
    next => exact hw.prefill_tag hb
  · intro a
    rw [hw.tables a]
    by_cases ha : id = a
    · subst ha
      simp [active, h, he.logicalBlocks]
    · simp [active, ha, IdMap.get_insert]

theorem editDecode (hw : s.Wf) (h : s.decodeSequences[id]? = some seq) (he : seq.SamePlace seq') :
    { s with decodeSequences := s.decodeSequences.insert id seq' }.Wf := by
  refine hw.of_parts (.editDecode h he) hw.pending_tag hw.prefill_tag ?_ hw.completed_tag
    hw.kvCache ⟨rfl, rfl⟩ ?_
  · intro a b hb
    simp only [IdMap.get_insert] at hb
    split at hb
    next ha =>
      subst ha
      rw [← Option.some.inj hb, he.seqId, he.state]
      exact hw.decode_tag h
    next => exact hw.decode_tag hb
  · intro a
    refine (hw.tables a).trans (.trans ?_ (congrArg _ (active_insert_decode hw h (by rfl) (by rfl) a).symm))
    split
    next ha =>
      subst ha
      rw [hw.active_of_decode h, Option.map_some, Option.map_some, he.logicalBlocks]
    next => rfl

theorem retire (hw : s.Wf) {state : RequestState} (ht : state.IsTerminal)
    (h : s.retire id state = some s') : s'.Wf := by
  obtain ⟨seq, hr⟩ := retire_spec hw h
  obtain ⟨table, htable, -⟩ := hw.pageTable_of_active hr.was
  have hkv := KVCacheManager.freeSequence_released hw.kvCache htable
  rw [← hr.kvCache] at hkv
  refine hw.of_parts (.retire ht h) ?_ ?_ ?_ ?_ (hkv.sound hw.kvCache htable)
    ⟨hkv.length, hkv.blockSize⟩ ?_
  · rw [hr.pending]
    exact hw.pending_tag
  · intro a b hb
    exact hw.prefill_tag (hr.of_prefill hb)
  · intro a b hb
    exact hw.decode_tag (hr.of_decode hb)
  · rw [hr.completed]
    intro r hmem
    rcases List.mem_append.1 hmem with hmem | hmem
    · exact hw.completed_tag r hmem
    · rw [List.mem_singleton.1 hmem]
      exact ht
  · intro a
    rw [hkv.pageTables, hr.active a, IdMap.get_erase]
    split
    next => rfl
    next => exact hw.tables a

end Wf

theorem Move.wf (hw : s.Wf) (h : Move s s') : s'.Wf := by
  cases h with
  | pressure b =>
      exact ⟨hw.ids_nodup, hw.ids_lt, hw.pending_tag, hw.prefill_tag, hw.decode_tag,
        hw.completed_tag, hw.kvCache, hw.poolSize, hw.blockSize, hw.tables⟩
  | reorder h =>
      exact hw.of_parts (.reorder h) (fun p hp => hw.pending_tag p (h.mem_iff.2 hp))
        hw.prefill_tag hw.decode_tag hw.completed_tag hw.kvCache ⟨rfl, rfl⟩ hw.tables
  | @reject p queue reason h =>
      refine hw.of_parts (.reject reason h) ?_ hw.prefill_tag hw.decode_tag ?_ hw.kvCache
        ⟨rfl, rfl⟩ hw.tables
      · intro q hq
        exact hw.pending_tag q (h.mem_iff.2 (List.mem_cons_of_mem _ hq))
      · intro r hr
        rcases List.mem_append.1 hr with hr | hr
        · exact hw.completed_tag r hr
        · rw [List.mem_singleton.1 hr]
          exact trivial
  | start h hkv => exact hw.start h hkv
  | toDecode h => exact hw.toDecode h
  | grow h hkv => exact hw.grow h hkv
  | editPrefill h he => exact hw.editPrefill h he
  | editDecode h he => exact hw.editDecode h he
  | retire ht h => exact hw.retire ht h

/-! ## Runs of moves -/

/-- What a run of moves from a well-formed scheduler keeps. -/
structure Evolves (s s' : Scheduler) : Prop where
  wf : s'.Wf
  config : s'.config = s.config
  nextSeqId : s'.nextSeqId = s.nextSeqId
  ids : s'.ids.Perm s.ids
  completed : s.completedRequests <+: s'.completedRequests
  unfinished : s'.numUnfinished ≤ s.numUnfinished

theorem Moves.evolves (hw : s.Wf) (h : Moves s s') : s.Evolves s' := by
  induction h with
  | refl => exact ⟨hw, rfl, rfl, .refl _, List.prefix_refl _, le_rfl⟩
  | tail _ hm ih =>
    exact ⟨hm.wf ih.wf, hm.config_eq.trans ih.config, hm.nextSeqId_eq.trans ih.nextSeqId,
      (hm.ids_perm ih.wf).trans ih.ids, ih.completed.trans hm.completed_prefix,
      (hm.numUnfinished_le ih.wf).trans ih.unfinished⟩

/-- A relation that every turn of a loop of moves is in holds over the whole loop. -/
theorem foldl_of_moves {α : Type} {f : Scheduler → α → Scheduler}
    {R : Scheduler → Scheduler → Prop} (hrefl : ∀ s, R s s)
    (htrans : ∀ {s s' s'' : Scheduler}, R s s' → R s' s'' → R s s'')
    (hmoves : ∀ (s : Scheduler) (x : α), Moves s (f s x))
    (hf : ∀ {s : Scheduler} (x : α), s.Wf → R s (f s x)) (hw : s.Wf) (xs : List α) :
    R s (xs.foldl f s) := by
  induction xs generalizing s with
  | nil => exact hrefl s
  | cons x rest ih => exact htrans (hf x hw) (ih (Moves.evolves hw (hmoves s x)).wf)

end Scheduler

end PagedServing
