import PagedServing.Engine.Pipeline

/-! # CPU reference executor

`src/cpu_executor.rs`. The vector arithmetic is a parameter: what is modelled is
which cache rows are written, read and deleted. Two fields are ghosts: the writer
of a cache row, and the list of visits, one for each token about to be processed.
-/

namespace PagedServing

def numLayers : Nat := 2

/-- The uninterpreted `f32` vector operations of the transformer. -/
structure CpuModel (V : Type) where
  embedding : Nat → V
  query : Nat → V → Nat → V
  key : Nat → V → Nat → V
  value : Nat → V → V
  /-- Scores, softmax and weighted sum over the rows `0..=pos`; `none` when the
  normaliser is not finite and positive. -/
  attend : V → List (V × V) → Option V
  /-- Output projection, residual and feed-forward block. -/
  transform : Nat → V → V → V
  sample : V → TokenId × TokenLogprobs
  zeroHidden : V
  zeroRow : V

/-- One offset of a cache block, with the sequence and position that wrote it. -/
structure KvRow (V : Type) where
  k : V
  v : V
  writer : Option (SeqId × Nat)

abbrev KvBlock (V : Type) := List (KvRow V)

abbrev KvCache (V : Type) := Nat × BlockIdx → Option (KvBlock V)

/-- A sequence is about to process the token at `position`. -/
structure Visit (V : Type) where
  seqId : SeqId
  position : Nat
  blockTable : List BlockIdx
  kvCache : KvCache V

structure CpuReferenceExecutor (V : Type) where
  config : EngineConfig
  vocabSize : Nat
  model : CpuModel V
  kvCache : KvCache V
  seqBlockTables : IdMap (List BlockIdx)
  visits : List (Visit V)

namespace CpuReferenceExecutor

variable {V : Type}

def new (config : EngineConfig) (vocabSize : Nat) (model : CpuModel V) : CpuReferenceExecutor V :=
  ⟨config, vocabSize, model, fun _ => none, ∅, []⟩

def blockSize (x : CpuReferenceExecutor V) : Nat := x.config.blockSize.toNat

def blockTableTooShort (index pos len : Nat) : EngineError :=
  .backendError s!"block_table too short: need index {index} for pos {pos}, len {len}"

def cacheMiss (layerIdx blockIdx : Nat) : EngineError :=
  .backendError s!"KV cache miss for layer {layerIdx}, block {blockIdx}"

/-- The cache row of position `i`, through the block table. -/
def readRow (x : CpuReferenceExecutor V) (blockTable : List BlockIdx) (layerIdx i : Nat) :
    Except EngineError (KvRow V) :=
  match blockTable[i / x.blockSize]? with
  | none => .error (blockTableTooShort (i / x.blockSize) i blockTable.length)
  | some blockIdx =>
      match x.kvCache (layerIdx, blockIdx) with
      | none => .error (cacheMiss layerIdx blockIdx)
      | some block =>
          match block[i % x.blockSize]? with
          | none => .error (cacheMiss layerIdx blockIdx) -- every block has `block_size` rows
          | some row => .ok row

/-- Every head reads the same rows `0..=pos`, so the reads are done once. -/
def attention (x : CpuReferenceExecutor V) (q : V) (blockTable : List BlockIdx)
    (pos layerIdx : Nat) : Except EngineError V :=
  match (List.range (pos + 1)).mapM (x.readRow blockTable layerIdx) with
  | .error e => .error e
  | .ok rows =>
      match x.model.attend q (rows.map fun row => (row.k, row.v)) with
      | none => .error .invalidOutput
      | some out => .ok out

/-- Write one row; a block seen for the first time starts out zeroed. -/
def writeRow (x : CpuReferenceExecutor V) (layerIdx : Nat) (blockIdx : BlockIdx) (offset : Nat)
    (row : KvRow V) : CpuReferenceExecutor V :=
  let block := (x.kvCache (layerIdx, blockIdx)).getD
    (List.replicate x.blockSize ⟨x.model.zeroRow, x.model.zeroRow, none⟩)
  { x with kvCache := Function.update x.kvCache (layerIdx, blockIdx) (some (block.set offset row)) }

def forwardLayer (x : CpuReferenceExecutor V) (seqId : SeqId) (blockTable : List BlockIdx)
    (pos : Nat) (hidden : V) (layerIdx : Nat) : Except EngineError V × CpuReferenceExecutor V :=
  let q := x.model.query layerIdx hidden pos
  let k := x.model.key layerIdx hidden pos
  let v := x.model.value layerIdx hidden
  match blockTable[pos / x.blockSize]? with
  | none => (.error (blockTableTooShort (pos / x.blockSize) pos blockTable.length), x)
  | some blockIdx =>
      let x := x.writeRow layerIdx blockIdx (pos % x.blockSize) ⟨k, v, some (seqId, pos)⟩
      match x.attention q blockTable pos layerIdx with
      | .error e => (.error e, x)
      | .ok attnOut => (.ok (x.model.transform layerIdx hidden attnOut), x)

def forwardLayers (seqId : SeqId) (blockTable : List BlockIdx) (pos : Nat) :
    List Nat → V → CpuReferenceExecutor V → Except EngineError V × CpuReferenceExecutor V
  | [], hidden, x => (.ok hidden, x)
  | layerIdx :: rest, hidden, x =>
      match x.forwardLayer seqId blockTable pos hidden layerIdx with
      | (.error e, x) => (.error e, x)
      | (.ok hidden, x) => forwardLayers seqId blockTable pos rest hidden x

def recordVisit (x : CpuReferenceExecutor V) (seqId : SeqId) (blockTable : List BlockIdx)
    (pos : Nat) : CpuReferenceExecutor V :=
  { x with visits := x.visits ++ [⟨seqId, pos, blockTable, x.kvCache⟩] }

def forwardTokens (seqId : SeqId) (blockTable : List BlockIdx) :
    List (TokenId × Nat) → V → CpuReferenceExecutor V →
      Except EngineError V × CpuReferenceExecutor V
  | [], hidden, x => (.ok hidden, x)
  | (token, pos) :: rest, _, x =>
      let x := x.recordVisit seqId blockTable pos
      let hidden := x.model.embedding (min token (x.vocabSize - 1))
      match forwardLayers seqId blockTable pos (List.range numLayers) hidden x with
      | (.error e, x) => (.error e, x)
      | (.ok hidden, x) => forwardTokens seqId blockTable rest hidden x

def forwardSeq (x : CpuReferenceExecutor V) (entry : BatchEntry) :
    Except EngineError (TokenId × TokenLogprobs) × CpuReferenceExecutor V :=
  match forwardTokens entry.seqId entry.blockTable (entry.tokens.zip entry.positions)
      x.model.zeroHidden x with
  | (.error e, x) => (.error e, x)
  | (.ok hidden, x) => (.ok (x.model.sample hidden), x)

def recordTable (x : CpuReferenceExecutor V) (entry : BatchEntry) : CpuReferenceExecutor V :=
  { x with seqBlockTables := x.seqBlockTables.insert entry.seqId entry.blockTable }

/-- The rows of the batch in order, up to the first failing one. -/
def executeEntries : List BatchEntry → CpuReferenceExecutor V →
    Except EngineError (List (TokenId × TokenLogprobs)) × CpuReferenceExecutor V
  | [], x => (.ok [], x)
  | entry :: rest, x =>
      match (x.recordTable entry).forwardSeq entry with
      | (.error e, x) => (.error e, x)
      | (.ok next, x) =>
          match executeEntries rest x with
          | (.error e, x) => (.error e, x)
          | (.ok tail, x) => (.ok (next :: tail), x)

def execute (x : CpuReferenceExecutor V) (batch : ExecutionBatch) :
    Except EngineError ExecutionOutput × CpuReferenceExecutor V :=
  if batch.isEmpty then (.ok {}, x)
  else if x.vocabSize = 0 then
    (.error (.backendError "CPU executor received an empty vocabulary"), x)
  else if x.config.maxBatchSize.toNat < batch.seqIds.length then
    (.error (.kernelLaunchFailed <| s!"Batch size {batch.seqIds.length} exceeds max "
      ++ toString x.config.maxBatchSize), x)
  else if x.config.maxTotalTokens.toNat < batch.inputTokens.length then
    (.error (.kernelLaunchFailed <| s!"Total tokens {batch.inputTokens.length} exceeds max "
      ++ toString x.config.maxTotalTokens), x)
  else
    match executeEntries batch.entries x with
    | (.error e, x) => (.error e, x)
    | (.ok rows, x) =>
        (.ok
          { nextTokens := rows.map (·.1)
            seqIds := batch.seqIds
            logprobs := rows.map fun row => some row.2 }, x)

/-- Drop the cache blocks of the last table recorded for a sequence. -/
def finishOne (x : CpuReferenceExecutor V) (seqId : SeqId) : CpuReferenceExecutor V :=
  match x.seqBlockTables[seqId]? with
  | none => x
  | some blockTable =>
      { x with
        seqBlockTables := x.seqBlockTables.erase seqId
        kvCache := fun key =>
          if key.1 < numLayers ∧ key.2 ∈ blockTable then none else x.kvCache key }

def sequencesFinished (x : CpuReferenceExecutor V) (seqIds : List SeqId) :
    CpuReferenceExecutor V :=
  seqIds.foldl finishOne x

instance : GPUExecutorTrait (CpuReferenceExecutor V) where
  execute := execute
  sequencesFinished := sequencesFinished

end CpuReferenceExecutor

end PagedServing
