import PagedServing.KvCache.Manager
import PagedServing.Library.Ledger

/-! # Who owns a block

The pool and the page tables instantiate the ledger: every block is on the free list
with reference count zero, or in one page table, once, with reference count one.
-/

namespace PagedServing

open FixedWidth

namespace BlockPool

/-- The reference counts say which blocks are on the free list. -/
structure Counted (p : BlockPool) : Prop where
  nodup : p.freeList.Nodup
  block_eq : ∀ {i : Nat} {block : PhysicalBlock}, p.blocks[i]? = some block →
    block = ⟨i, if i ∈ p.freeList then 0 else 1⟩

theorem counted_new (numBlocks blockSize : Nat) : (new numBlocks blockSize).Counted := by
  refine ⟨List.nodup_range, ?_⟩
  intro i block h
  simp only [new, List.getElem?_map, Option.map_eq_some_iff, List.getElem?_eq_some_iff,
    List.length_range, List.getElem_range] at h
  obtain ⟨_, ⟨hi, rfl⟩, rfl⟩ := h
  simp [new, hi]

/-- `p'` is `p` after its first `n` free blocks have been taken. -/
structure Taken (p : BlockPool) (n : Nat) (p' : BlockPool) : Prop where
  freeList : p'.freeList = p.freeList.drop n
  length : p'.blocks.length = p.blocks.length
  blockSize : p'.blockSize = p.blockSize
  counted : p.Counted → p'.Counted

theorem Taken.refl (p : BlockPool) : p.Taken 0 p := ⟨by simp, rfl, rfl, id⟩

theorem Taken.trans {p q r : BlockPool} {m n : Nat} (h : p.Taken m q) (h' : q.Taken n r) :
    p.Taken (m + n) r where
  freeList := by rw [h'.freeList, h.freeList, List.drop_drop]
  length := h'.length.trans h.length
  blockSize := h'.blockSize.trans h.blockSize
  counted hp := h'.counted (h.counted hp)

theorem allocate_of_cons {p : BlockPool} {b : BlockIdx} {rest : List BlockIdx}
    (h : p.freeList = b :: rest) : ∃ p', p.allocate = (.ok ⟨b⟩, p') ∧ p.Taken 1 p' := by
  refine ⟨{ p with
    freeList := rest
    blocks := p.blocks.modify b fun block => { block with refCount := 1 } }, ?_, ?_⟩
  · simp [allocate, h]
  · refine ⟨by simp [h], by simp, rfl, ?_⟩
    intro hp
    have hnodup := hp.nodup
    rw [h, List.nodup_cons] at hnodup
    refine ⟨hnodup.2, ?_⟩
    intro i block hi
    rw [List.getElem?_modify, Option.map_eq_map, Option.map_eq_some_iff] at hi
    obtain ⟨old, hold, rfl⟩ := hi
    have heq := hp.block_eq hold
    by_cases hb : b = i
    · subst hb
      simp [heq, hnodup.1]
    · simp [heq, hb, h, Ne.symm hb]

theorem allocate_of_nil {p : BlockPool} (h : p.freeList = []) :
    p.allocate = (.error .outOfBlocks, p) := by
  simp [allocate, h]

/-- Allocation fails only on an empty free list, and then changes nothing. -/
theorem allocate_cases (p : BlockPool) :
    (p.freeList = [] ∧ p.allocate = (.error .outOfBlocks, p)) ∨
      ∃ b rest p', p.freeList = b :: rest ∧ p.allocate = (.ok ⟨b⟩, p') ∧ p.Taken 1 p' := by
  cases h : p.freeList with
  | nil => exact .inl ⟨rfl, allocate_of_nil h⟩
  | cons b rest =>
      obtain ⟨p', hp', htaken⟩ := allocate_of_cons h
      exact .inr ⟨b, rest, p', rfl, hp', htaken⟩

/-- A block that is out comes back at the end of the free list. -/
theorem free_of_held {p : BlockPool} {b : BlockIdx} (hp : p.Counted)
    (hlen : p.blocks.length < 2 ^ 32) (hb : b < p.blocks.length) (hfree : b ∉ p.freeList) :
    (p.free ⟨b⟩).2.freeList = p.freeList ++ [b] ∧
      (p.free ⟨b⟩).2.blocks.length = p.blocks.length ∧
      (p.free ⟨b⟩).2.blockSize = p.blockSize ∧ (p.free ⟨b⟩).2.Counted := by
  have hget : p.blocks[b]? = some ⟨b, 1⟩ := by
    rw [List.getElem?_eq_getElem hb]
    simpa [hfree] using hp.block_eq (List.getElem?_eq_getElem hb)
  have hbound : ¬ asU32 p.blocks.length ≤ b := by rwa [asU32_of_lt hlen, Nat.not_le]
  have hcounted : ({ p with
      blocks := p.blocks.modify b fun block => { block with refCount := 0 }
      freeList := p.freeList ++ [b] } : BlockPool).Counted := by
    refine ⟨List.nodup_append.2 ⟨hp.nodup, by simp, ?_⟩, ?_⟩
    · rintro a ha c hc rfl
      exact hfree ((List.mem_singleton.1 hc) ▸ ha)
    · intro i block hi
      rw [List.getElem?_modify, Option.map_eq_map, Option.map_eq_some_iff] at hi
      obtain ⟨old, hold, rfl⟩ := hi
      have heq := hp.block_eq hold
      by_cases hi : b = i
      · subst hi
        simp [heq]
      · simp [heq, hi, Ne.symm hi]
  have hresult : (p.free ⟨b⟩).2 = { p with
      blocks := p.blocks.modify b fun block => { block with refCount := 0 }
      freeList := p.freeList ++ [b] } := by
    simp [free, hbound, hget]
  rw [hresult]
  exact ⟨rfl, by simp, rfl, hcounted⟩

end BlockPool

namespace KVCacheManager

open BlockPool

theorem allocateBlocks_taken {n : Nat} {p : BlockPool} (table : PageTable)
    (h : n ≤ p.freeList.length) :
    ∃ p', allocateBlocks n p table =
        (.ok { table with
          logicalBlocks := table.logicalBlocks ++ (p.freeList.take n).map PhysicalBlockRef.mk }, p')
      ∧ p.Taken n p' := by
  induction n generalizing p table with
  | zero => exact ⟨p, by simp [allocateBlocks], Taken.refl p⟩
  | succ n ih =>
    rcases p.allocate_cases with ⟨hnil, -⟩ | ⟨b, rest, p₁, hcons, halloc, htaken⟩
    · simp [hnil] at h
    · have hlen : n ≤ p₁.freeList.length := by
        rw [htaken.freeList, hcons]
        simpa [hcons] using h
      obtain ⟨p₂, heq, htaken₂⟩ := ih (table.addBlock ⟨b⟩) hlen
      refine ⟨p₂, ?_, by simpa [Nat.add_comm] using htaken.trans htaken₂⟩
      rw [allocateBlocks, halloc]
      simp only
      rw [heq, htaken.freeList, hcons]
      simp [PageTable.addBlock]

theorem freeBlocks_of_held {p : BlockPool} {refs : List PhysicalBlockRef} (hp : p.Counted)
    (hlen : p.blocks.length < 2 ^ 32) (hnodup : (refs.map (·.blockIdx)).Nodup)
    (hheld : ∀ ref ∈ refs, ref.blockIdx < p.blocks.length ∧ ref.blockIdx ∉ p.freeList) :
    (freeBlocks p refs).freeList = p.freeList ++ refs.map (·.blockIdx) ∧
      (freeBlocks p refs).blocks.length = p.blocks.length ∧
      (freeBlocks p refs).blockSize = p.blockSize ∧ (freeBlocks p refs).Counted := by
  induction refs generalizing p with
  | nil => exact ⟨by simp [freeBlocks], rfl, rfl, hp⟩
  | cons ref rest ih =>
    obtain ⟨hlt, hfree⟩ := hheld ref (by simp)
    obtain ⟨hlist, hsize, hbs, hcounted⟩ := free_of_held hp hlen hlt hfree
    rw [List.map_cons, List.nodup_cons] at hnodup
    obtain ⟨hlist', hsize', hbs', hcounted'⟩ := ih (p := (p.free ref).2) hcounted
      (by rwa [hsize]) hnodup.2 (by
        intro r hr
        obtain ⟨hr₁, hr₂⟩ := hheld r (by simp [hr])
        refine ⟨by rwa [hsize], ?_⟩
        rw [hlist]
        simp only [List.mem_append, List.mem_singleton, not_or]
        exact ⟨hr₂, fun heq => hnodup.1 (heq ▸ List.mem_map_of_mem hr)⟩)
    refine ⟨?_, hsize'.trans hsize, hbs'.trans hbs, hcounted'⟩
    change (freeBlocks (p.free ref).2 rest).freeList = _
    rw [hlist', hlist]
    simp

/-! ## The manager -/

/-- Every block is free with count zero, or in one page table, once, with count one. -/
structure Sound (m : KVCacheManager) : Prop where
  length_lt : m.blockPool.blocks.length < 2 ^ 32
  counted : m.blockPool.Counted
  ledger : Ledger PageTable.getBlockTable m.blockPool.blocks.length m.blockPool.freeList
    m.pageTables

theorem sound_new {numBlocks : Nat} (blockSize : Nat) (h : numBlocks < 2 ^ 32) :
    (new numBlocks blockSize).Sound where
  length_lt := by simpa [new, BlockPool.new] using h
  counted := counted_new numBlocks blockSize
  ledger := by simpa [new, BlockPool.new] using Ledger.new PageTable.getBlockTable numBlocks

variable {m m' : KVCacheManager} {seqId : SeqId}

theorem canAllocate_iff {n : Nat} : m.canAllocate n = true ↔ n ≤ m.blockPool.freeList.length := by
  simp [canAllocate, BlockPool.canAllocate]

/-- A successful allocation for a new sequence: it owns the first blocks of the free list. -/
structure Opened (m : KVCacheManager) (seqId : SeqId) (n : Nat) (m' : KVCacheManager) : Prop where
  enough : n ≤ m.blockPool.freeList.length
  taken : m.blockPool.Taken n m'.blockPool
  pageTables : m'.pageTables = m.pageTables.insert seqId
    ⟨seqId, (m.blockPool.freeList.take n).map PhysicalBlockRef.mk⟩

theorem allocateSequence_opened {numTokens : Nat} (hnew : m.pageTables[seqId]? = none)
    (hcan : m.canAllocate (m.blocksForTokens numTokens) = true) :
    ∃ m', m.allocateSequence seqId numTokens = (.ok (), m') ∧
      m.Opened seqId (m.blocksForTokens numTokens) m' := by
  have henough := canAllocate_iff.1 hcan
  obtain ⟨p, heq, htaken⟩ := allocateBlocks_taken (PageTable.new seqId) henough
  refine ⟨⟨p, m.pageTables.insert seqId ⟨seqId, (m.blockPool.freeList.take
    (m.blocksForTokens numTokens)).map PhysicalBlockRef.mk⟩⟩, ?_, ⟨henough, htaken, rfl⟩⟩
  have hcontains := IdMap.contains_eq_false_iff.2 hnew
  have hpool : m.blockPool.canAllocate (m.blocksForTokens numTokens) = true := hcan
  simp only [allocateSequence, hcontains, hpool, heq]
  simp [PageTable.new]

theorem Opened.sound {n : Nat} (h : m.Opened seqId n m') (hnew : m.pageTables[seqId]? = none)
    (hm : m.Sound) : m'.Sound := by
  refine ⟨by rw [h.taken.length]; exact hm.length_lt, h.taken.counted hm.counted, ?_⟩
  rw [h.taken.length, h.taken.freeList, h.pageTables]
  refine Ledger.enter ?_ hnew
  have hunits : PageTable.getBlockTable
      ⟨seqId, (m.blockPool.freeList.take n).map PhysicalBlockRef.mk⟩
      = m.blockPool.freeList.take n := by
    simp [PageTable.getBlockTable, Function.comp_def]
  rw [hunits, List.take_append_drop]
  exact hm.ledger

/-- A sequence with a page table gets one more block. -/
structure Extended (m : KVCacheManager) (seqId : SeqId) (ref : PhysicalBlockRef)
    (m' : KVCacheManager) : Prop where
  head : ∃ rest, m.blockPool.freeList = ref.blockIdx :: rest
  taken : m.blockPool.Taken 1 m'.blockPool
  pageTables : ∃ table, m.pageTables[seqId]? = some table ∧
    m'.pageTables = m.pageTables.insert seqId (table.addBlock ref)

/-- Growing a known sequence succeeds exactly when a block is free. -/
theorem allocateBlock_cases {table : PageTable} (h : m.pageTables[seqId]? = some table) :
    (m.blockPool.freeList = [] ∧ m.allocateBlock seqId = (.error .outOfBlocks, m)) ∨
      ∃ ref m', m.allocateBlock seqId = (.ok ref, m') ∧ m.Extended seqId ref m' := by
  rcases m.blockPool.allocate_cases with ⟨hnil, halloc⟩ | ⟨b, rest, p, hcons, halloc, htaken⟩
  · exact .inl ⟨hnil, by simp [allocateBlock, h, halloc]⟩
  · exact .inr ⟨⟨b⟩, ⟨p, m.pageTables.insert seqId (table.addBlock ⟨b⟩)⟩,
      by simp [allocateBlock, h, halloc], ⟨⟨rest, hcons⟩, htaken, table, h, rfl⟩⟩

theorem Extended.sound {ref : PhysicalBlockRef} (h : m.Extended seqId ref m') (hm : m.Sound) :
    m'.Sound := by
  obtain ⟨rest, hcons⟩ := h.head
  obtain ⟨table, htable, htables⟩ := h.pageTables
  refine ⟨by rw [h.taken.length]; exact hm.length_lt, h.taken.counted hm.counted, ?_⟩
  rw [h.taken.length, h.taken.freeList, htables, hcons]
  refine Ledger.extend (i := ref.blockIdx) ?_ htable (by
    simp [PageTable.getBlockTable, PageTable.addBlock])
  simpa [hcons] using hm.ledger

/-- The blocks of a sequence that leaves go to the end of the free list. -/
structure Released (m : KVCacheManager) (seqId : SeqId) (table : PageTable)
    (m' : KVCacheManager) : Prop where
  freeList : m'.blockPool.freeList = m.blockPool.freeList ++ table.getBlockTable
  length : m'.blockPool.blocks.length = m.blockPool.blocks.length
  blockSize : m'.blockPool.blockSize = m.blockPool.blockSize
  counted : m'.blockPool.Counted
  pageTables : m'.pageTables = m.pageTables.erase seqId

theorem freeSequence_released {table : PageTable} (hm : m.Sound)
    (h : m.pageTables[seqId]? = some table) : m.Released seqId table (m.freeSequence seqId) := by
  have hheld : ∀ ref ∈ table.logicalBlocks,
      ref.blockIdx < m.blockPool.blocks.length ∧ ref.blockIdx ∉ m.blockPool.freeList := by
    intro ref href
    have hmem : ref.blockIdx ∈ table.getBlockTable := List.mem_map_of_mem href
    exact ⟨hm.ledger.lt_of_mem_units h hmem, hm.ledger.disjoint_free h hmem⟩
  obtain ⟨hlist, hlen, hbs, hcounted⟩ := freeBlocks_of_held hm.counted hm.length_lt
    (hm.ledger.units_nodup h) hheld
  rw [freeSequence, h]
  exact ⟨hlist, hlen, hbs, hcounted, rfl⟩

theorem Released.sound {table : PageTable} (h : m.Released seqId table m') (hm : m.Sound)
    (htable : m.pageTables[seqId]? = some table) : m'.Sound := by
  refine ⟨by rw [h.length]; exact hm.length_lt, h.counted, ?_⟩
  rw [h.length, h.freeList, h.pageTables]
  exact hm.ledger.leave htable

theorem Sound.usedBlocks_eq (hm : m.Sound) :
    m.getMemoryStats.usedBlocks =
      ((IdMap.vals m.pageTables).map fun table => table.getBlockTable.length).sum := by
  have hlen := hm.ledger.length
  have hfree : m.blockPool.freeList.length < 2 ^ 32 := by have := hm.length_lt; omega
  simp only [getMemoryStats, numUsedBlocks, totalBlocks, numFreeBlocks,
    asU32_of_lt hm.length_lt, asU32_of_lt hfree]
  omega

end KVCacheManager

end PagedServing
