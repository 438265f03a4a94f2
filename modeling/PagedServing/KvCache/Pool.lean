import PagedServing.KvCache.Ownership

/-! # The block pool under arbitrary callers

`allocate` and `free` in any order, the latter on any reference: repeated, stale, never
handed out or out of range. Beside the pool runs the list of blocks handed out and not
given back since, which the code does not keep; free list and reference counts both
follow it.
-/

namespace PagedServing

open FixedWidth

inductive PoolOp where
  | allocate
  | free (ref : PhysicalBlockRef)
  deriving DecidableEq

namespace BlockPool

/-! ## Every result of `free` -/

variable {p : BlockPool} {ref : PhysicalBlockRef}

theorem free_of_length_le (hlen : p.blocks.length < 2 ^ 32)
    (h : p.blocks.length ≤ ref.blockIdx) :
    p.free ref = (.error (.invalidBlockIndex ref.blockIdx), p) := by
  rw [free, if_pos (by rwa [asU32_of_lt hlen])]

/-- A second `free` of one block is answered as the first was, and does nothing. -/
theorem free_of_mem_freeList (hp : p.Counted) (hlen : p.blocks.length < 2 ^ 32)
    (hlt : ref.blockIdx < p.blocks.length) (h : ref.blockIdx ∈ p.freeList) :
    p.free ref = (.ok (), p) := by
  have hget : p.blocks[ref.blockIdx]? = some ⟨ref.blockIdx, 0⟩ := by
    rw [List.getElem?_eq_getElem hlt]
    simpa [h] using hp.block_eq (List.getElem?_eq_getElem hlt)
  have hbound : ¬ asU32 p.blocks.length ≤ ref.blockIdx := by
    rwa [asU32_of_lt hlen, Nat.not_le]
  simp [free, hbound, hget]

theorem mem_freeList_of_allocate {pool : BlockPool} (heq : p.allocate = (.ok ref, pool)) :
    ref.blockIdx ∈ p.freeList := by
  rcases p.allocate_cases with ⟨-, heq'⟩ | ⟨b, rest, pool', hcons, heq', -⟩
  · rw [heq'] at heq
    cases heq
  · rw [heq'] at heq
    cases heq
    simp [hcons]

/-- The number of blocks with reference count one is what the free list leaves over. -/
theorem Counted.countP_add_length (hp : p.Counted)
    (hlt : ∀ i ∈ p.freeList, i < p.blocks.length) :
    p.blocks.countP (·.refCount = 1) + p.freeList.length = p.blocks.length := by
  have hblocks : p.blocks =
      (List.range p.blocks.length).map fun i => ⟨i, if i ∈ p.freeList then 0 else 1⟩ := by
    refine List.ext_getElem (by simp) ?_
    intro i h _
    simpa using hp.block_eq (List.getElem?_eq_getElem h)
  have hone : p.blocks.countP (·.refCount = 1) =
      (List.range p.blocks.length).countP fun i => decide ¬ decide (i ∈ p.freeList) = true := by
    conv_lhs => rw [hblocks, List.countP_map]
    refine List.countP_congr ?_
    intro i _
    simp
  have hfree : ((List.range p.blocks.length).filter (· ∈ p.freeList)).Perm p.freeList := by
    refine (List.perm_ext_iff_of_nodup (List.nodup_range.filter _) hp.nodup).2 ?_
    intro i
    simpa using hlt i
  have hsplit := List.length_eq_countP_add_countP (l := List.range p.blocks.length)
    fun i => decide (i ∈ p.freeList)
  rw [List.length_range, List.countP_eq_length_filter, hfree.length_eq] at hsplit
  rw [hone, Nat.add_comm]
  exact hsplit.symm

end BlockPool

/-! ## Histories -/

/-- A pool with the blocks its callers hold: handed out by `allocate`, and not named in a
`free` since. -/
structure PoolHistory where
  pool : BlockPool
  out : List BlockIdx

namespace PoolHistory

open BlockPool

def new (numBlocks blockSize : UInt32) : PoolHistory :=
  ⟨BlockPool.new numBlocks.toNat blockSize.toNat, []⟩

def apply (h : PoolHistory) : PoolOp → PoolHistory
  | .allocate =>
      match h.pool.allocate with
      | (.ok ref, pool) => ⟨pool, ref.blockIdx :: h.out⟩
      | (.error _, pool) => ⟨pool, h.out⟩
  | .free ref => ⟨(h.pool.free ref).2, h.out.filter (· ≠ ref.blockIdx)⟩

def run (h : PoolHistory) (ops : List PoolOp) : PoolHistory := ops.foldl apply h

/-- Free list, reference counts and the callers' blocks say the same. -/
structure Agrees (h : PoolHistory) : Prop where
  length_lt : h.pool.blocks.length < 2 ^ 32
  counted : h.pool.Counted
  lt : ∀ {i : BlockIdx}, i ∈ h.pool.freeList → i < h.pool.blocks.length
  out : ∀ {i : BlockIdx}, i ∈ h.out ↔ i < h.pool.blocks.length ∧ i ∉ h.pool.freeList

theorem agrees_new (numBlocks blockSize : UInt32) : (new numBlocks blockSize).Agrees where
  length_lt := by simpa [new, BlockPool.new] using numBlocks.toNat_lt
  counted := counted_new _ _
  lt := by simp [new, BlockPool.new]
  out := by simp [new, BlockPool.new]

variable {h : PoolHistory}

theorem Agrees.apply_allocate (ha : h.Agrees) : (h.apply .allocate).Agrees := by
  rcases h.pool.allocate_cases with ⟨-, heq⟩ | ⟨b, rest, pool, hcons, heq, htaken⟩
  · simpa only [apply, heq] using ha
  · have hrest : pool.freeList = rest := by simp [htaken.freeList, hcons]
    have hnodup := ha.counted.nodup
    rw [hcons, List.nodup_cons] at hnodup
    have hb : b < h.pool.blocks.length := ha.lt (by simp [hcons])
    simp only [apply, heq]
    refine ⟨htaken.length ▸ ha.length_lt, htaken.counted ha.counted, ?_, ?_⟩
    · intro i hi
      rw [hrest] at hi
      rw [htaken.length]
      exact ha.lt (by simp [hcons, hi])
    · intro i
      rw [List.mem_cons, ha.out, htaken.length, hrest, hcons, List.mem_cons]
      by_cases hi : i = b
      · simp [hi, hb, hnodup.1]
      · simp [hi]

theorem Agrees.apply_free (ha : h.Agrees) (ref : PhysicalBlockRef) :
    (h.apply (.free ref)).Agrees := by
  -- unless the block is out, the pool stays and no caller's block is struck off
  have hsame (hres : (h.pool.free ref).2 = h.pool) (hout : ref.blockIdx ∉ h.out) :
      (h.apply (.free ref)).Agrees := by
    have hfilter : h.out.filter (· ≠ ref.blockIdx) = h.out := by
      refine List.filter_eq_self.2 ?_
      intro i hi
      have hne : i ≠ ref.blockIdx := fun heq => hout (heq ▸ hi)
      simpa using hne
    simpa only [apply, hres, hfilter] using ha
  by_cases hlt : ref.blockIdx < h.pool.blocks.length
  · by_cases hmem : ref.blockIdx ∈ h.pool.freeList
    · refine hsame (by rw [free_of_mem_freeList ha.counted ha.length_lt hlt hmem]) ?_
      rw [ha.out]
      exact fun hout => hout.2 hmem
    · obtain ⟨hlist, hlen, -, hcounted⟩ := free_of_held ha.counted ha.length_lt hlt hmem
      refine ⟨hlen ▸ ha.length_lt, hcounted, ?_, ?_⟩
      · intro i hi
        simp only [apply] at hi ⊢
        rw [hlist, List.mem_append, List.mem_singleton] at hi
        rw [hlen]
        rcases hi with hi | rfl
        · exact ha.lt hi
        · exact hlt
      · intro i
        simp only [apply, List.mem_filter, hlen, hlist, ha.out, List.mem_append,
          List.mem_singleton, not_or, decide_eq_true_eq]
        exact and_assoc
  · refine hsame (by rw [free_of_length_le ha.length_lt (Nat.not_lt.1 hlt)]) ?_
    rw [ha.out]
    exact fun hout => hlt hout.1

theorem Agrees.run (ha : h.Agrees) (ops : List PoolOp) : (h.run ops).Agrees := by
  induction ops generalizing h with
  | nil => exact ha
  | cons op rest ih =>
    cases op with
    | allocate => exact ih ha.apply_allocate
    | free ref => exact ih (ha.apply_free ref)

/-! ## What every caller can rely on -/

/-- Free list, reference counts and counters of a pool in step, whoever called it. -/
structure Intact (h : PoolHistory) : Prop where
  freeList_nodup : h.pool.freeList.Nodup
  freeList_lt : ∀ i ∈ h.pool.freeList, i < h.pool.blocks.length
  free_iff : ∀ (i : BlockIdx) (block : PhysicalBlock), h.pool.blocks[i]? = some block →
    (i ∈ h.pool.freeList ↔ block.refCount = 0)
  refCount_le : ∀ block ∈ h.pool.blocks, block.refCount ≤ 1
  out_iff : ∀ i : BlockIdx,
    i ∈ h.out ↔ ∃ block, h.pool.blocks[i]? = some block ∧ block.refCount = 1
  allocate_fresh : ∀ (ref : PhysicalBlockRef) (pool : BlockPool),
    h.pool.allocate = (.ok ref, pool) → ref.blockIdx ∉ h.out ∧
      ∃ block, h.pool.blocks[ref.blockIdx]? = some block ∧ block.refCount = 0
  numFreeBlocks_le : h.pool.numFreeBlocks ≤ h.pool.totalBlocks
  numUsedBlocks_eq : h.pool.numUsedBlocks = h.pool.blocks.countP (·.refCount = 1)
  free_unchanged : ∀ ref : PhysicalBlockRef,
    h.pool.blocks.length ≤ ref.blockIdx ∨ ref.blockIdx ∈ h.pool.freeList →
      (h.pool.free ref).2 = h.pool

theorem Agrees.getElem?_eq (ha : h.Agrees) {i : BlockIdx} (hi : i < h.pool.blocks.length) :
    h.pool.blocks[i]? = some ⟨i, if i ∈ h.pool.freeList then 0 else 1⟩ := by
  rw [List.getElem?_eq_getElem hi]
  exact congrArg some (ha.counted.block_eq (List.getElem?_eq_getElem hi))

theorem Agrees.intact (ha : h.Agrees) : h.Intact where
  freeList_nodup := ha.counted.nodup
  freeList_lt i hi := ha.lt hi
  free_iff i block hblock := by
    rw [ha.counted.block_eq hblock]
    split <;> simp_all
  refCount_le block hblock := by
    obtain ⟨i, hi⟩ := List.mem_iff_getElem?.1 hblock
    rw [ha.counted.block_eq hi]
    split <;> simp
  out_iff i := by
    rw [ha.out]
    constructor
    · rintro ⟨hlt, hfree⟩
      exact ⟨_, ha.getElem?_eq hlt, by simp [hfree]⟩
    · rintro ⟨block, hblock, hcount⟩
      refine ⟨(List.getElem?_eq_some_iff.1 hblock).1, fun hfree => ?_⟩
      rw [ha.counted.block_eq hblock] at hcount
      simp [hfree] at hcount
  allocate_fresh ref pool heq := by
    have hmem := mem_freeList_of_allocate heq
    refine ⟨fun hout => (ha.out.1 hout).2 hmem, _, ha.getElem?_eq (ha.lt hmem), ?_⟩
    simp [hmem]
  numFreeBlocks_le := by
    have hsum := ha.counted.countP_add_length fun i hi => ha.lt hi
    have hlen := ha.length_lt
    rw [numFreeBlocks, totalBlocks, asU32_of_lt hlen, asU32_of_lt (by omega)]
    omega
  numUsedBlocks_eq := by
    have hsum := ha.counted.countP_add_length fun i hi => ha.lt hi
    have hlen := ha.length_lt
    rw [numUsedBlocks, totalBlocks, numFreeBlocks, asU32_of_lt hlen, asU32_of_lt (by omega)]
    omega
  free_unchanged ref href := by
    by_cases hlt : ref.blockIdx < h.pool.blocks.length
    · rw [free_of_mem_freeList ha.counted ha.length_lt hlt
        (href.resolve_left (Nat.not_le.2 hlt))]
    · rw [free_of_length_le ha.length_lt (Nat.not_lt.1 hlt)]

/-- Whatever is allocated and freed, in any order and with any references, the pool stays
intact. -/
theorem intact_of_run (numBlocks blockSize : UInt32) (ops : List PoolOp) :
    ((new numBlocks blockSize).run ops).Intact :=
  ((agrees_new numBlocks blockSize).run ops).intact

-- a double free: the block is handed out once more, not twice
example : ((new 2 16).run [.allocate, .free ⟨0⟩, .free ⟨0⟩, .allocate, .allocate]).out = [0, 1] := by
  decide

end PoolHistory

end PagedServing
