import PagedServing.Config
import PagedServing.Library.IdMap

/-! # Paged KV cache manager

`src/kv_cache.rs`: a pool of physical blocks with a FIFO free list, and one page
table per sequence. Fallible operations return their result with the new state.
-/

namespace PagedServing

open FixedWidth

structure PhysicalBlock where
  blockIdx : BlockIdx
  refCount : Nat
  deriving DecidableEq

structure BlockPool where
  blocks : List PhysicalBlock
  freeList : List BlockIdx
  blockSize : Nat

namespace BlockPool

def new (numBlocks blockSize : Nat) : BlockPool :=
  ⟨(List.range numBlocks).map fun i => ⟨i, 0⟩, List.range numBlocks, blockSize⟩

def allocate (p : BlockPool) : Except EngineError PhysicalBlockRef × BlockPool :=
  match p.freeList with
  | [] => (.error .outOfBlocks, p)
  | b :: rest =>
      (.ok ⟨b⟩,
        { p with
          freeList := rest
          blocks := p.blocks.modify b fun block => { block with refCount := 1 } })

def free (p : BlockPool) (ref : PhysicalBlockRef) : Except EngineError Unit × BlockPool :=
  if asU32 p.blocks.length ≤ ref.blockIdx then (.error (.invalidBlockIndex ref.blockIdx), p)
  else
    match p.blocks[ref.blockIdx]? with
    | none => (.ok (), p) -- the index is in range
    | some block =>
        if block.refCount = 0 then (.ok (), p) -- already free, idempotent
        else
          let count := block.refCount - 1
          let blocks := p.blocks.modify ref.blockIdx fun block => { block with refCount := count }
          if count = 0 then
            (.ok (), { p with blocks := blocks, freeList := p.freeList ++ [ref.blockIdx] })
          else (.ok (), { p with blocks := blocks })

def canAllocate (p : BlockPool) (numBlocks : Nat) : Bool := numBlocks ≤ p.freeList.length

def numFreeBlocks (p : BlockPool) : Nat := asU32 p.freeList.length

def totalBlocks (p : BlockPool) : Nat := asU32 p.blocks.length

def numUsedBlocks (p : BlockPool) : Nat := p.totalBlocks - p.numFreeBlocks

end BlockPool

structure PageTable where
  seqId : SeqId
  logicalBlocks : List PhysicalBlockRef
  deriving DecidableEq

namespace PageTable

def new (seqId : SeqId) : PageTable := ⟨seqId, []⟩

def addBlock (t : PageTable) (ref : PhysicalBlockRef) : PageTable :=
  { t with logicalBlocks := t.logicalBlocks ++ [ref] }

def getBlockTable (t : PageTable) : List BlockIdx := t.logicalBlocks.map (·.blockIdx)

end PageTable

structure KVCacheManager where
  blockPool : BlockPool
  pageTables : IdMap PageTable

namespace KVCacheManager

def new (numBlocks blockSize : Nat) : KVCacheManager := ⟨BlockPool.new numBlocks blockSize, ∅⟩

def blocksForTokens (m : KVCacheManager) (numTokens : Nat) : Nat :=
  PagedServing.blocksForTokens numTokens m.blockPool.blockSize

/-- The loop of `allocate_sequence`: one block a turn, leaving at the first failure
with the blocks taken so far lost. -/
def allocateBlocks : Nat → BlockPool → PageTable → Except EngineError PageTable × BlockPool
  | 0, pool, table => (.ok table, pool)
  | n + 1, pool, table =>
      match pool.allocate with
      | (.error e, pool) => (.error e, pool)
      | (.ok ref, pool) => allocateBlocks n pool (table.addBlock ref)

def allocateSequence (m : KVCacheManager) (seqId : SeqId) (numTokens : Nat) :
    Except EngineError Unit × KVCacheManager :=
  if m.pageTables.contains seqId then (.ok (), m)
  else
    let numBlocks := m.blocksForTokens numTokens
    if !m.blockPool.canAllocate numBlocks then (.error .outOfBlocks, m)
    else
      match allocateBlocks numBlocks m.blockPool (PageTable.new seqId) with
      | (.error e, pool) => (.error e, { m with blockPool := pool })
      | (.ok table, pool) => (.ok (), ⟨pool, m.pageTables.insert seqId table⟩)

def allocateBlock (m : KVCacheManager) (seqId : SeqId) :
    Except EngineError PhysicalBlockRef × KVCacheManager :=
  match m.pageTables[seqId]? with
  | none => (.error (.sequenceNotFound seqId), m)
  | some table =>
      match m.blockPool.allocate with
      | (.error e, pool) => (.error e, { m with blockPool := pool })
      | (.ok ref, pool) => (.ok ref, ⟨pool, m.pageTables.insert seqId (table.addBlock ref)⟩)

/-- Every block of a table goes back to the pool; a failing `free` is only logged. -/
def freeBlocks (pool : BlockPool) (refs : List PhysicalBlockRef) : BlockPool :=
  refs.foldl (fun pool ref => (pool.free ref).2) pool

def freeSequence (m : KVCacheManager) (seqId : SeqId) : KVCacheManager :=
  match m.pageTables[seqId]? with
  | none => m
  | some table => ⟨freeBlocks m.blockPool table.logicalBlocks, m.pageTables.erase seqId⟩

def getBlockTable (m : KVCacheManager) (seqId : SeqId) : Option (List BlockIdx) :=
  m.pageTables[seqId]?.map (·.getBlockTable)

def getMemoryStats (m : KVCacheManager) : MemoryStats where
  totalBlocks := m.blockPool.totalBlocks
  usedBlocks := m.blockPool.numUsedBlocks
  freeBlocks := m.blockPool.numFreeBlocks
  numSequences := asU32 m.pageTables.size

def canAllocate (m : KVCacheManager) (numBlocks : Nat) : Bool := m.blockPool.canAllocate numBlocks

end KVCacheManager

end PagedServing
