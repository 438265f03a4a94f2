import PagedServing.Config
import PagedServing.Library.IdMap
import PagedServing.Library.SignedWord

/-! # tiny-llm executor

`src/tiny_llm_executor.rs`. The library behind the C interface is a parameter, with the
state its handle points to. `none` is the panic of a build with overflow checks.
-/

namespace PagedServing

open FixedWidth SignedWord

/-! ## Environment -/

def decimalValue (digits : List Char) : Option Nat :=
  if digits.isEmpty || !digits.all (·.isDigit) then none
  else some (digits.foldl (fun n c => 10 * n + (c.toNat - '0'.toNat)) 0)

/-- `str::parse::<i32>`. -/
def parseI32 : List Char → Option Int32
  | '-' :: digits =>
      (decimalValue digits).bind fun n => if n ≤ 2 ^ 31 then some (Int32.ofInt (-n)) else none
  | '+' :: digits =>
      (decimalValue digits).bind fun n => if n < 2 ^ 31 then some (Int32.ofNat n) else none
  | digits => (decimalValue digits).bind fun n => if n < 2 ^ 31 then some (Int32.ofNat n) else none

def trim (text : String) : List Char := (text.toList.dropWhile isWhiteSpace).rdropWhile isWhiteSpace

def envI32Or (value : Option String) (default : Int32) : Int32 :=
  match value with
  | some v => (parseI32 (trim v)).getD default
  | none => default

def defaultDecodeReserve : Int32 := 512

def defaultMaxConcurrentSeqs : Int32 := 4

/-! ## The C interface -/

/-- `TinyLlmConfig`; the dimensions, all zero here, are read from the model file. -/
structure TinyLlmConfig where
  blockSize : Int32
  maxBatchSize : Int32
  maxNumBlocks : Int32

/-- What one call of `tinyllm_step` is given. -/
structure TinyLlmStep where
  seqIds : List Int32
  inputTokens : List Int32
  positions : List Int32
  seqLens : List Int32
  blockTables : Option (List Int32 × List Int32) -- flattened, with one length for each sequence
  isPrefill : List Bool

/-- The functions of the library; each returns its status. -/
structure TinyLlmSymbols (η : Type) where
  load : String → TinyLlmConfig → Except String η
  allocateSequence : η → Int32 → Int32 → Int32 × η
  freeSequence : η → Int32 → Int32 × η
  step : η → TinyLlmStep → Int32 × List Int32 × η

structure TinyLlmExecutor (η : Type) where
  handle : η
  allocated : IdMap Int32 -- by the bits of the `c_int`
  paged : Bool
  maxBatchSize : Int32
  decodeReserve : Int32

namespace TinyLlmExecutor

variable {η : Type} (mode : OverflowMode) (symbols : TinyLlmSymbols η)

/-- The reserve `new` reads from the environment. -/
def decodeReserveOf (env : String → Option String) : Int32 :=
  max (envI32Or (env "PAGED_SERVING_TINY_LLM_DECODE_RESERVE") defaultDecodeReserve) 0

def new (env : String → Option String) (modelPath : String) (config : EngineConfig) :
    Except EngineError (TinyLlmExecutor η) :=
  let paged := env "PAGED_SERVING_TINY_LLM_STRATEGY" != some "2"
  let maxConcurrentSeqs :=
    max (envI32Or (env "PAGED_SERVING_TINY_LLM_MAX_SEQS") defaultMaxConcurrentSeqs) 1
  let maxBatchSize := min config.maxBatchSize.toInt32 maxConcurrentSeqs
  if modelPath.toList.any (· = Char.ofNat 0) then
    .error (.backendError "model path contains NUL")
  else
    match symbols.load modelPath
        ⟨config.blockSize.toInt32, maxBatchSize, if paged then config.maxNumBlocks.toInt32 else 0⟩ with
    | .error msg => .error (.backendError ("tinyllm_load failed: " ++ msg))
    | .ok handle => .ok ⟨handle, ∅, paged, maxBatchSize, decodeReserveOf env⟩

def allocTokensFor (contextLen : Nat) (decodeReserve : Int32) : Option Int32 :=
  (add mode (Int32.ofNat contextLen) decodeReserve).map (max · 64)

def ensureAllocated (x : TinyLlmExecutor η) (seqId : SeqId) (contextLen : Nat) :
    Option (Except EngineError Unit × TinyLlmExecutor η) :=
  if x.allocated.contains (asU32 seqId) then some (.ok (), x)
  else
    (allocTokensFor mode contextLen x.decodeReserve).map fun allocTokens =>
      let id := Int32.ofNat seqId
      let (rc, handle) := symbols.allocateSequence x.handle id allocTokens
      if rc ≠ 0 then
        (.error (.backendError s!"tinyllm_allocate_sequence({id}) failed"), { x with handle })
      else (.ok (), { x with handle, allocated := x.allocated.insert (asU32 seqId) allocTokens })

def overCapacity (seqId : SeqId) (reserve capacity : Int32) : EngineError :=
  .backendError <|
    s!"sequence {seqId} 生成将超出 tiny-llm 预留 KV 容量 (context+{reserve}，容量 {capacity})，" ++
      "请调小 max_tokens 或调大 PAGED_SERVING_TINY_LLM_DECODE_RESERVE"

/-- One turn of the first loop of `execute`. -/
def admitRow (x : TinyLlmExecutor η) (seqId : SeqId) (contextLen : Nat) :
    Option (Except EngineError Unit × TinyLlmExecutor η) :=
  match x.ensureAllocated mode symbols seqId contextLen with
  | none => none
  | some (.error e, x) => some (.error e, x)
  | some (.ok (), x) =>
      match x.allocated[asU32 seqId]? with
      | none => some (.ok (), x)
      | some capacity =>
          (add mode (Int32.ofNat contextLen) 1).map fun next =>
            (if next > capacity then .error (overCapacity seqId x.decodeReserve capacity)
              else .ok (), x)

def admitRows : List (SeqId × Nat) → TinyLlmExecutor η →
    Option (Except EngineError Unit × TinyLlmExecutor η)
  | [], x => some (.ok (), x)
  | (seqId, contextLen) :: rest, x =>
      match x.admitRow mode symbols seqId contextLen with
      | some (.ok (), x) => admitRows rest x
      | stopped => stopped

/-- `i as usize` for an `i32`. -/
def asUsize (i : Int32) : Nat := (i.toInt % 2 ^ 64).toNat

/-- The arguments of `tinyllm_step`; a paged sequence without blocks is refused. -/
def stepOf (x : TinyLlmExecutor η) (batch : ExecutionBatch) : Except EngineError TinyLlmStep :=
  if x.paged && batch.blockTables.any (·.isEmpty) then .error (.backendError "empty block table")
  else
    .ok {
      seqIds := batch.seqIds.map Int32.ofNat
      inputTokens := batch.inputTokens.map Int32.ofNat
      positions := batch.positions.map Int32.ofNat
      seqLens := batch.seqLens.map Int32.ofNat
      blockTables :=
        if x.paged then
          some (batch.blockTables.flatten.map Int32.ofNat,
            batch.blockTables.map fun table => Int32.ofNat table.length)
        else none
      isPrefill := batch.isPrefill }

def execute (x : TinyLlmExecutor η) (batch : ExecutionBatch) :
    Option (Except EngineError ExecutionOutput × TinyLlmExecutor η) :=
  let n := batch.seqIds.length
  if batch.isEmpty then some (.ok {}, x)
  else if n > asUsize x.maxBatchSize then
    let limit := x.maxBatchSize
    some (.error (.kernelLaunchFailed s!"Batch size {n} exceeds max {limit}"), x)
  else
    let rows := batch.seqIds.zipIdx.map fun p => (p.1, (batch.contextLens[p.2]?).getD 0)
    match x.admitRows mode symbols rows with
    | none => none
    | some (.error e, x) => some (.error e, x)
    | some (.ok (), x) =>
        match x.stepOf batch with
        | .error e => some (.error e, x)
        | .ok step =>
            let (rc, nextTokens, handle) := symbols.step x.handle step
            let x := { x with handle }
            if rc ≠ 0 then some (.error (.backendError s!"tinyllm_step failed rc={rc}"), x)
            else
              some (.ok
                { nextTokens := nextTokens.map fun token => token.toUInt32.toNat
                  seqIds := batch.seqIds }, x)

def finishOne (x : TinyLlmExecutor η) (seqId : SeqId) : TinyLlmExecutor η :=
  if x.allocated.contains (asU32 seqId) then
    { x with
      handle := (symbols.freeSequence x.handle (Int32.ofNat seqId)).2 -- a failure is only logged
      allocated := x.allocated.erase (asU32 seqId) }
  else x

def sequencesFinished (x : TinyLlmExecutor η) (seqIds : List SeqId) : TinyLlmExecutor η :=
  seqIds.foldl (finishOne symbols) x

end TinyLlmExecutor

end PagedServing
