import PagedServing.Scheduler.Schedule

/-! # Batch execution pipeline

`src/execution_pipeline.rs` over the backend contract of `src/gpu_executor.rs`.
The backend is any state type with the trait's operations. `calls` is a ghost
field: what was sent to the backend and what it answered, oldest first.
-/

namespace PagedServing

open FixedWidth

structure ExecutorCapabilities where
  sampling : Bool
  retrySafe : Bool
  deriving DecidableEq

def ExecutorCapabilities.greedyOnly : ExecutorCapabilities := ⟨false, false⟩

class GPUExecutorTrait (σ : Type) where
  execute : σ → ExecutionBatch → Except EngineError ExecutionOutput × σ
  sequencesFinished : σ → List SeqId → σ := fun backend _ => backend
  capabilities : σ → ExecutorCapabilities := fun _ => .greedyOnly

inductive BackendCall where
  | execute (batch : ExecutionBatch) (reply : Except EngineError ExecutionOutput)
  | sequencesFinished (seqIds : List SeqId)

structure BatchExecutionPipeline (σ : Type) where
  gpuExecutor : σ
  maxRetryAttempts : UInt32
  calls : List BackendCall := []

/-! ## Building a batch -/

namespace ExecutionBatch

def addPrefill (b : ExecutionBatch) (seq : Sequence) : ExecutionBatch where
  inputTokens := b.inputTokens ++ seq.request.inputTokens
  positions := b.positions ++ (List.range seq.request.inputTokens.length).map asU32
  seqLens := b.seqLens ++ [asU32 seq.request.inputTokens.length]
  blockTables := b.blockTables ++ [seq.getBlockTable]
  isPrefill := b.isPrefill ++ [true]
  seqIds := b.seqIds ++ [seq.seqId]
  contextLens := b.contextLens ++ [seq.contextLen]

def addDecode (b : ExecutionBatch) (seq : Sequence) : Except EngineError ExecutionBatch :=
  match seq.decodeInputToken with
  | none =>
      .error <| .invalidStateTransition
        s!"decode sequence {seq.seqId} has no input token for batch construction"
  | some inputToken =>
      match seq.decodePosition with
      | none =>
          .error <| .invalidStateTransition
            s!"decode sequence {seq.seqId} has zero context length"
      | some position =>
          .ok
            { inputTokens := b.inputTokens ++ [inputToken]
              positions := b.positions ++ [position]
              seqLens := b.seqLens ++ [1]
              blockTables := b.blockTables ++ [seq.getBlockTable]
              isPrefill := b.isPrefill ++ [false]
              seqIds := b.seqIds ++ [seq.seqId]
              contextLens := b.contextLens ++ [seq.contextLen] }

end ExecutionBatch

def buildExecutionBatch (o : SchedulerOutput) : Except EngineError ExecutionBatch :=
  o.decodeSequences.foldlM ExecutionBatch.addDecode
    (o.prefillSequences.foldl ExecutionBatch.addPrefill {})

/-! ## The rows of a batch -/

/-- What a batch holds for one sequence. -/
structure BatchEntry where
  seqId : SeqId
  isPrefill : Bool
  tokens : List TokenId
  positions : List Nat
  contextLen : Nat
  blockTable : List BlockIdx
  deriving DecidableEq

/-- Cut the flattened tokens and positions by the sequence lengths. -/
def entriesFrom : List SeqId → List Bool → List Nat → List Nat → List (List BlockIdx) →
    List TokenId → List Nat → List BatchEntry
  | seqId :: seqIds, isPrefill :: flags, seqLen :: seqLens, contextLen :: contextLens,
      blockTable :: blockTables, tokens, positions =>
      ⟨seqId, isPrefill, tokens.take seqLen, positions.take seqLen, contextLen, blockTable⟩ ::
        entriesFrom seqIds flags seqLens contextLens blockTables (tokens.drop seqLen)
          (positions.drop seqLen)
  | _, _, _, _, _, _, _ => []

/-- The per-sequence slices a backend works through, in batch order. -/
def ExecutionBatch.entries (b : ExecutionBatch) : List BatchEntry :=
  entriesFrom b.seqIds b.isPrefill b.seqLens b.contextLens b.blockTables b.inputTokens b.positions

theorem ExecutionBatch.entries_of_isEmpty {b : ExecutionBatch} (h : b.isEmpty = true) :
    b.entries = [] := by
  rw [entries, List.isEmpty_iff.1 h]
  simp [entriesFrom]

/-! ## Shape of a batch, shape of an answer -/

def invalidBatch (detail : String) : Except EngineError Unit :=
  .error (.backendError ("invalid execution batch: " ++ detail))

/-- The per-sequence part of `validate_batch_shape`. -/
def validateRows : List SeqId → List Nat → List (List BlockIdx) → Except EngineError Unit
  | seqId :: seqIds, seqLen :: seqLens, blockTable :: blockTables =>
      if seqLen = 0 then invalidBatch s!"sequence {seqId} has zero length"
      else if blockTable.isEmpty then invalidBatch s!"sequence {seqId} has an empty block table"
      else validateRows seqIds seqLens blockTables
  | _, _, _ => .ok ()

def validateBatchShape (b : ExecutionBatch) : Except EngineError Unit :=
  if b.isEmpty then .ok ()
  else if b.inputTokens.length ≠ b.positions.length then
    invalidBatch <| s!"input_tokens.len()={b.inputTokens.length}"
      ++ s!" != positions.len()={b.positions.length}"
  else
    let n := b.seqIds.length
    if b.seqLens.length ≠ n ∨ b.isPrefill.length ≠ n ∨ b.contextLens.length ≠ n
        ∨ b.blockTables.length ≠ n then
      invalidBatch <| s!"seq_ids.len()={n} but seq_lens.len()={b.seqLens.length}, "
        ++ s!"is_prefill.len()={b.isPrefill.length}, context_lens.len()={b.contextLens.length}, "
        ++ s!"block_tables.len()={b.blockTables.length}"
    else
      let totalLen := asU32 b.seqLens.sum
      if totalLen ≠ b.inputTokens.length then
        invalidBatch <| s!"sum(seq_lens)={totalLen} != "
          ++ s!"input_tokens.len()={b.inputTokens.length}"
      else validateRows b.seqIds b.seqLens b.blockTables

def malformedOutput (detail : String) : Except EngineError Unit :=
  .error (.backendError ("malformed execution output: " ++ detail))

/-- Debug text of a `HashSet`, whose iteration order the source leaves open. -/
def displayIdSet (ids : List SeqId) : String :=
  "\x7b" ++ ", ".intercalate (ids.dedup.map toString) ++ "\x7d"

def validateExecutionOutput (b : ExecutionBatch) (o : ExecutionOutput) : Except EngineError Unit :=
  if o.nextTokens.length ≠ o.seqIds.length then
    malformedOutput <| s!"next_tokens.len()={o.nextTokens.length}"
      ++ s!" != seq_ids.len()={o.seqIds.length}"
  else if o.seqIds.length ≠ b.seqIds.length then
    malformedOutput <| s!"output has {o.seqIds.length} sequences"
      ++ s!" but batch has {b.seqIds.length}"
  else if o.seqIds.dedup.length ≠ o.seqIds.length then
    malformedOutput "seq_ids contains duplicates"
  else if o.seqIds.toFinset ≠ b.seqIds.toFinset then
    malformedOutput <| "seq_ids " ++ displayIdSet o.seqIds ++ " does not match batch seq_ids "
      ++ displayIdSet b.seqIds
  else if !o.logprobs.isEmpty ∧ o.logprobs.length ≠ o.seqIds.length then
    malformedOutput <| s!"logprobs.len()={o.logprobs.length}"
      ++ s!" != seq_ids.len()={o.seqIds.length}"
  else .ok ()

/-! ## Execution -/

namespace BatchExecutionPipeline

variable {σ : Type} [GPUExecutorTrait σ]

def new (gpuExecutor : σ) (config : EngineConfig) : BatchExecutionPipeline σ :=
  ⟨gpuExecutor, config.maxRetryAttempts, []⟩

def capabilities (p : BatchExecutionPipeline σ) : ExecutorCapabilities :=
  GPUExecutorTrait.capabilities p.gpuExecutor

def sequencesFinished (p : BatchExecutionPipeline σ) (seqIds : List SeqId) :
    BatchExecutionPipeline σ :=
  { p with
    gpuExecutor := GPUExecutorTrait.sequencesFinished p.gpuExecutor seqIds
    calls := p.calls ++ [.sequencesFinished seqIds] }

/-- One call of the backend. -/
def attempt (p : BatchExecutionPipeline σ) (batch : ExecutionBatch) :
    Except EngineError ExecutionOutput × BatchExecutionPipeline σ :=
  let (reply, gpuExecutor) := GPUExecutorTrait.execute p.gpuExecutor batch
  (reply, { p with gpuExecutor := gpuExecutor, calls := p.calls ++ [.execute batch reply] })

def accept (batch : ExecutionBatch) (output : ExecutionOutput) :
    Except EngineError ExecutionOutput :=
  match validateExecutionOutput batch output with
  | .ok _ => .ok output
  | .error e => .error e

/-- The retry loop, by the number of retries left. -/
def executeLoop (batch : ExecutionBatch) (retrySafe : Bool) :
    Nat → BatchExecutionPipeline σ →
      Except EngineError ExecutionOutput × BatchExecutionPipeline σ
  | 0, p =>
      match p.attempt batch with
      | (.ok output, p) => (accept batch output, p)
      | (.error e, p) => (.error e, p)
  | retriesLeft + 1, p =>
      match p.attempt batch with
      | (.ok output, p) => (accept batch output, p)
      | (.error .gpuTimeout, p) =>
          if retrySafe then executeLoop batch retrySafe retriesLeft p else (.error .gpuTimeout, p)
      | (.error e, p) => (.error e, p)

def execute (p : BatchExecutionPipeline σ) (o : SchedulerOutput) :
    Except EngineError ExecutionOutput × BatchExecutionPipeline σ :=
  if o.isEmpty then (.ok {}, p)
  else
    match buildExecutionBatch o with
    | .error e => (.error e, p)
    | .ok batch =>
        match validateBatchShape batch with
        | .error e => (.error e, p)
        | .ok _ => p.executeLoop batch p.capabilities.retrySafe p.maxRetryAttempts.toNat

end BatchExecutionPipeline

end PagedServing
