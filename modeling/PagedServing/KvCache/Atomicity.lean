import PagedServing.KvCache.Ownership

/-! # Cache operations, all or nothing

Every operation of the manager either does all of its work or leaves the manager as it
was, and touches one page table. What keeps the allocation loop from stopping half way is
that the check before it counts the same free list.
-/

namespace PagedServing

inductive CacheOp where
  | allocate (seqId : SeqId) (numTokens : UInt32)
  | free (seqId : SeqId)
  | grow (seqId : SeqId)
  deriving DecidableEq

def CacheOp.seqId : CacheOp → SeqId
  | .allocate id _ | .free id | .grow id => id

namespace KVCacheManager

def apply (m : KVCacheManager) : CacheOp → KVCacheManager
  | .allocate id numTokens => (m.allocateSequence id numTokens.toNat).2
  | .free id => m.freeSequence id
  | .grow id => (m.allocateBlock id).2

def run (m : KVCacheManager) (ops : List CacheOp) : KVCacheManager := ops.foldl apply m

variable {m m' : KVCacheManager} {seqId : SeqId} {numTokens : Nat}

/-! ## One operation -/

theorem allocateSequence_of_known {table : PageTable} (h : m.pageTables[seqId]? = some table) :
    m.allocateSequence seqId numTokens = (.ok (), m) := by
  rw [allocateSequence, if_pos (IdMap.contains_eq_true_iff.2 ⟨table, h⟩)]

theorem allocateSequence_of_short
    (hcan : m.canAllocate (m.blocksForTokens numTokens) = false)
    (hnew : m.pageTables[seqId]? = none) :
    m.allocateSequence seqId numTokens = (.error .outOfBlocks, m) := by
  have hcontains := IdMap.contains_eq_false_iff.2 hnew
  have hpool : m.blockPool.canAllocate (m.blocksForTokens numTokens) = false := hcan
  simp [allocateSequence, hcontains, hpool]

theorem allocateBlock_of_unknown (h : m.pageTables[seqId]? = none) :
    m.allocateBlock seqId = (.error (.sequenceNotFound seqId), m) := by
  simp [allocateBlock, h]

theorem freeSequence_of_unknown (h : m.pageTables[seqId]? = none) : m.freeSequence seqId = m := by
  simp [freeSequence, h]

/-- An operation changes nothing, or opens, releases or extends one page table. -/
theorem Sound.apply_cases (hm : m.Sound) (op : CacheOp) :
    m.apply op = m ∨
      (m.pageTables[op.seqId]? = none ∧ ∃ n, m.Opened op.seqId n (m.apply op)) ∨
      (∃ table, m.pageTables[op.seqId]? = some table ∧ m.Released op.seqId table (m.apply op)) ∨
      ∃ ref, m.Extended op.seqId ref (m.apply op) := by
  cases op with
  | allocate id numTokens =>
    rw [apply]
    cases hid : m.pageTables[id]? with
    | some table => exact .inl (by rw [allocateSequence_of_known hid])
    | none =>
      cases hcan : m.canAllocate (m.blocksForTokens numTokens.toNat) with
      | false => exact .inl (by rw [allocateSequence_of_short hcan hid])
      | true =>
        obtain ⟨m', heq, hopened⟩ := allocateSequence_opened hid hcan
        rw [heq]
        exact .inr (.inl ⟨hid, _, hopened⟩)
  | free id =>
    rw [apply]
    cases hid : m.pageTables[id]? with
    | none => exact .inl (freeSequence_of_unknown hid)
    | some table => exact .inr (.inr (.inl ⟨table, hid, freeSequence_released hm hid⟩))
  | grow id =>
    rw [apply]
    cases hid : m.pageTables[id]? with
    | none => exact .inl (by rw [allocateBlock_of_unknown hid])
    | some table =>
      rcases allocateBlock_cases hid with ⟨-, heq⟩ | ⟨ref, m', heq, hextended⟩
      · exact .inl (by rw [heq])
      · rw [heq]
        exact .inr (.inr (.inr ⟨ref, hextended⟩))

theorem Sound.apply (hm : m.Sound) (op : CacheOp) :
    (m.apply op).Sound ∧ (m.apply op).blockPool.blockSize = m.blockPool.blockSize := by
  rcases hm.apply_cases op with heq | ⟨hnew, n, h⟩ | ⟨table, htable, h⟩ | ⟨ref, h⟩
  · rw [heq]
    exact ⟨hm, rfl⟩
  · exact ⟨h.sound hnew hm, h.taken.blockSize⟩
  · exact ⟨h.sound hm htable, h.blockSize⟩
  · exact ⟨h.sound hm, h.taken.blockSize⟩

theorem Sound.run (hm : m.Sound) (ops : List CacheOp) :
    (m.run ops).Sound ∧ (m.run ops).blockPool.blockSize = m.blockPool.blockSize := by
  induction ops generalizing m with
  | nil => exact ⟨hm, rfl⟩
  | cons op rest ih =>
    obtain ⟨hsound, hsize⟩ := hm.apply op
    obtain ⟨hsound', hsize'⟩ := ih hsound
    exact ⟨hsound', hsize'.trans hsize⟩

theorem Sound.apply_other (hm : m.Sound) (op : CacheOp) {other : SeqId} (hne : op.seqId ≠ other) :
    (m.apply op).pageTables[other]? = m.pageTables[other]? := by
  rcases hm.apply_cases op with heq | ⟨-, n, h⟩ | ⟨table, -, h⟩ | ⟨ref, h⟩
  · rw [heq]
  · rw [h.pageTables, IdMap.get_insert_ne hne]
  · rw [h.pageTables, IdMap.get_erase_ne hne]
  · obtain ⟨table, -, htables⟩ := h.pageTables
    rw [htables, IdMap.get_insert_ne hne]

/-! ## All operations -/

structure OpsAtomic (m : KVCacheManager) (blockSize : Nat) : Prop where
  /-- All the blocks a new sequence needs, if so many are free. -/
  allocate_new : ∀ (id : SeqId) (numTokens : UInt32), m.pageTables[id]? = none →
    numTokens.toNat ⌈/⌉ blockSize ≤ m.blockPool.freeList.length →
      ∃ (refs : List PhysicalBlockRef) (m' : KVCacheManager),
        m.allocateSequence id numTokens.toNat = (.ok (), m') ∧
        refs.length = numTokens.toNat ⌈/⌉ blockSize ∧ (refs.map (·.blockIdx)).Nodup ∧
        m.blockPool.freeList = refs.map (·.blockIdx) ++ m'.blockPool.freeList ∧
        m'.pageTables = m.pageTables.insert id ⟨id, refs⟩
  /-- Otherwise none of them, and the manager as it was. -/
  allocate_short : ∀ (id : SeqId) (numTokens : UInt32), m.pageTables[id]? = none →
    m.blockPool.freeList.length < numTokens.toNat ⌈/⌉ blockSize →
      m.allocateSequence id numTokens.toNat = (.error .outOfBlocks, m)
  /-- Past the capacity check, the allocation loop runs to its end. -/
  loop_ok : ∀ (id : SeqId) (numTokens : UInt32),
    m.blockPool.canAllocate (m.blocksForTokens numTokens.toNat) = true →
      ∃ table, (allocateBlocks (m.blocksForTokens numTokens.toNat) m.blockPool
        (PageTable.new id)).1 = .ok table
  allocate_known : ∀ (id : SeqId) (numTokens : UInt32) (table : PageTable),
    m.pageTables[id]? = some table → m.allocateSequence id numTokens.toNat = (.ok (), m)
  /-- One free block more for a known sequence, if there is one. -/
  grow : ∀ (id : SeqId) (table : PageTable), m.pageTables[id]? = some table →
    m.blockPool.freeList ≠ [] → ∃ (ref : PhysicalBlockRef) (m' : KVCacheManager),
      m.allocateBlock id = (.ok ref, m') ∧
      m.blockPool.freeList = ref.blockIdx :: m'.blockPool.freeList ∧
      m'.pageTables = m.pageTables.insert id (table.addBlock ref)
  grow_short : ∀ (id : SeqId) (table : PageTable), m.pageTables[id]? = some table →
    m.blockPool.freeList = [] → m.allocateBlock id = (.error .outOfBlocks, m)
  grow_unknown : ∀ id : SeqId, m.pageTables[id]? = none →
    m.allocateBlock id = (.error (.sequenceNotFound id), m)
  /-- The blocks of the table return to the free list, each once. -/
  free_known : ∀ (id : SeqId) (table : PageTable), m.pageTables[id]? = some table →
    (m.freeSequence id).blockPool.freeList = m.blockPool.freeList ++ table.getBlockTable ∧
      (m.blockPool.freeList ++ table.getBlockTable).Nodup ∧
      (m.freeSequence id).pageTables = m.pageTables.erase id
  free_unknown : ∀ id : SeqId, m.pageTables[id]? = none → m.freeSequence id = m
  other : ∀ (op : CacheOp) (id : SeqId), op.seqId ≠ id →
    (m.apply op).pageTables[id]? = m.pageTables[id]?

theorem Sound.allocate_new (hm : m.Sound) (hnew : m.pageTables[seqId]? = none)
    (hcan : m.canAllocate (m.blocksForTokens numTokens) = true) :
    ∃ (refs : List PhysicalBlockRef) (m' : KVCacheManager),
      m.allocateSequence seqId numTokens = (.ok (), m') ∧
      refs.length = m.blocksForTokens numTokens ∧ (refs.map (·.blockIdx)).Nodup ∧
      m.blockPool.freeList = refs.map (·.blockIdx) ++ m'.blockPool.freeList ∧
      m'.pageTables = m.pageTables.insert seqId ⟨seqId, refs⟩ := by
  obtain ⟨m', heq, hopened⟩ := allocateSequence_opened hnew hcan
  refine ⟨_, m', heq, ?_, ?_, ?_, hopened.pageTables⟩
  · simpa using hopened.enough
  · simpa [Function.comp_def] using hm.counted.nodup.sublist (List.take_sublist _ _)
  · simp [hopened.taken.freeList, Function.comp_def]

theorem Sound.opsAtomic (hm : m.Sound) : m.OpsAtomic m.blockPool.blockSize where
  allocate_new id numTokens hnew henough := hm.allocate_new hnew (canAllocate_iff.2 henough)
  allocate_short id numTokens hnew hshort := by
    refine allocateSequence_of_short (Bool.eq_false_iff.2 fun hcan => ?_) hnew
    exact Nat.not_le.2 hshort (canAllocate_iff.1 hcan)
  loop_ok id numTokens hcan := by
    obtain ⟨pool, heq, -⟩ := allocateBlocks_taken (PageTable.new id) (canAllocate_iff.1 hcan)
    exact ⟨_, congrArg Prod.fst heq⟩
  allocate_known id numTokens table h := allocateSequence_of_known h
  grow id table h hfree := by
    rcases allocateBlock_cases h with ⟨hnil, -⟩ | ⟨ref, m', heq, hextended⟩
    · exact absurd hnil hfree
    · obtain ⟨table', htable', htables⟩ := hextended.pageTables
      obtain ⟨rest, hcons⟩ := hextended.head
      obtain rfl : table = table' := Option.some.inj (h.symm.trans htable')
      refine ⟨ref, m', heq, ?_, htables⟩
      rw [hextended.taken.freeList, hcons]
      rfl
  grow_short id table h hnil := by
    rcases allocateBlock_cases h with ⟨-, heq⟩ | ⟨ref, m', -, hextended⟩
    · exact heq
    · obtain ⟨rest, hcons⟩ := hextended.head
      rw [hnil] at hcons
      cases hcons
  grow_unknown id h := allocateBlock_of_unknown h
  free_known id table h := by
    have hreleased := freeSequence_released hm h
    have hsound := hreleased.sound hm h
    exact ⟨hreleased.freeList, hreleased.freeList ▸ hsound.counted.nodup, hreleased.pageTables⟩
  free_unknown id h := freeSequence_of_unknown h
  other op id hne := hm.apply_other op hne

/-- After any operations on a new manager, the next one is atomic and local. -/
theorem opsAtomic_of_run (numBlocks blockSize : UInt32) (ops : List CacheOp) :
    ((new numBlocks.toNat blockSize.toNat).run ops).OpsAtomic blockSize.toNat := by
  obtain ⟨hsound, hsize⟩ := (sound_new blockSize.toNat numBlocks.toNat_lt).run ops
  have hatomic := hsound.opsAtomic
  rwa [hsize] at hatomic

/-- Of two blocks one is allocated for a sequence and the other added to it; then there is none
left for the next sequence. -/
theorem opsAtomic_of_run_two :
    (∃ m', (new 2 1).allocateSequence 7 1 = (.ok (), m')) ∧
      (∃ ref m', ((new 2 1).run [.allocate 7 1]).allocateBlock 7 = (.ok ref, m')) ∧
      ((new 2 1).run [.allocate 7 1, .grow 7]).allocateSequence 8 1 =
        (.error .outOfBlocks, (new 2 1).run [.allocate 7 1, .grow 7]) := by
  have hnew : (new 2 1).OpsAtomic 1 := opsAtomic_of_run 2 1 []
  have hallocated : ((new 2 1).run [.allocate 7 1]).OpsAtomic 1 := opsAtomic_of_run 2 1 _
  have hgrown : ((new 2 1).run [.allocate 7 1, .grow 7]).OpsAtomic 1 := opsAtomic_of_run 2 1 _
  refine ⟨?_, ?_, hgrown.allocate_short 8 1 (by decide +kernel) (by decide +kernel)⟩
  · obtain ⟨-, m', heq, -⟩ := hnew.allocate_new 7 1 (by decide +kernel) (by decide +kernel)
    exact ⟨m', heq⟩
  · obtain ⟨table, htable⟩ := Option.isSome_iff_exists.1
      (by decide +kernel : ((new 2 1).run [.allocate 7 1]).pageTables[7]?.isSome = true)
    obtain ⟨ref, m', heq, -⟩ := hallocated.grow 7 table htable (by decide +kernel)
    exact ⟨ref, m', heq⟩

end KVCacheManager

end PagedServing
