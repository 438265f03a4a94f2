import PagedServing.Error
import PagedServing.Library.FixedWidth

/-! # Requests, sequences and batches

The records of `src/types/`. Identifiers and token ids are only compared, so they
are natural numbers; limits that take part in bounded arithmetic keep their width.
-/

namespace PagedServing

open FixedWidth

abbrev RequestId := Nat
abbrev SeqId := Nat
abbrev TokenId := Nat
abbrev BlockIdx := Nat

inductive RequestState where
  | pending
  | prefill
  | decode
  | completed
  | failed (reason : String)
  deriving DecidableEq

/-- The two states from which a request never moves again. -/
def RequestState.IsTerminal : RequestState → Prop
  | .completed | .failed _ => True
  | _ => False

structure GenerationParams where
  maxTokens : UInt32 := 100
  temperature : F32 := .finite 0
  topP : F32 := .finite 1
  stop : List String := []
  logprobs : Option Nat := none
  priority : UInt8 := 0
  deriving DecidableEq

def GenerationParams.validate (p : GenerationParams) : Except EngineError Unit :=
  if p.maxTokens = 0 then .error (.invalidMaxTokens p.maxTokens)
  else if !p.temperature.isFinite
      || !(F32.le (.finite 0) p.temperature && F32.le p.temperature (.finite 2)) then
    .error (.invalidTemperature p.temperature)
  else if !p.topP.isFinite || F32.le p.topP (.finite 0) || !F32.le p.topP (.finite 1) then
    .error (.invalidTopP p.topP)
  else if p.stop.length > 4 then .error (.tooManyStopSequences p.stop.length)
  else
    match p.logprobs with
    | some k => if k > 5 then .error (.invalidLogprobs k) else .ok ()
    | none => .ok ()

theorem GenerationParams.maxTokens_pos_of_validate {p : GenerationParams}
    (h : p.validate = .ok ()) : 1 ≤ p.maxTokens.toNat := by
  by_contra hzero
  have hmax : p.maxTokens = 0 := UInt32.toNat_inj.1 (by simpa using hzero)
  simp [validate, hmax] at h

def GenerationParams.isGreedy (p : GenerationParams) : Bool :=
  p.temperature.eq (.finite 0) && p.topP.eq (.finite 1)

structure TokenLogprobs where
  token : TokenId
  logprob : F32
  topLogprobs : List (TokenId × F32)
  deriving DecidableEq

structure Request where
  id : RequestId
  inputTokens : List TokenId
  outputTokens : List TokenId
  params : GenerationParams
  stopSequenceHit : Bool
  logprobs : List TokenLogprobs
  state : RequestState
  deriving DecidableEq

namespace Request

def new (id : RequestId) (inputTokens : List TokenId) (params : GenerationParams) : Request :=
  ⟨id, inputTokens, [], params, false, [], .pending⟩

def totalTokens (r : Request) : Nat := r.inputTokens.length + r.outputTokens.length

def isComplete (r : Request) (eosTokenId : TokenId) : Bool :=
  if r.outputTokens.length ≥ r.params.maxTokens.toNat then true
  else
    match r.outputTokens.getLast? with
    | some last => last == eosTokenId
    | none => false

end Request

inductive FinishReason where
  | stop
  | length
  deriving DecidableEq

structure CompletedRequest where
  requestId : RequestId
  inputText : Option String
  outputText : String
  outputTokens : List TokenId
  success : Bool
  error : Option String
  finishReason : Option FinishReason
  logprobs : Option (List TokenLogprobs)
  deriving DecidableEq

structure PhysicalBlockRef where
  blockIdx : BlockIdx
  deriving DecidableEq

structure Sequence where
  seqId : SeqId
  request : Request
  logicalBlocks : List PhysicalBlockRef
  numGeneratedTokens : Nat
  deriving DecidableEq

namespace Sequence

def new (seqId : SeqId) (request : Request) : Sequence := ⟨seqId, request, [], 0⟩

def getBlockTable (s : Sequence) : List BlockIdx := s.logicalBlocks.map (·.blockIdx)

def contextLen (s : Sequence) : Nat :=
  saturatingAdd (clampU32 s.request.inputTokens.length) s.numGeneratedTokens

def decodeInputToken (s : Sequence) : Option TokenId :=
  s.request.outputTokens.getLast?.or s.request.inputTokens.getLast?

def decodePosition (s : Sequence) : Option Nat :=
  if 1 ≤ s.contextLen then some (s.contextLen - 1) else none

end Sequence

structure SchedulerOutput where
  prefillSequences : List Sequence := []
  decodeSequences : List Sequence := []
  totalTokens : Nat := 0

namespace SchedulerOutput

def isEmpty (o : SchedulerOutput) : Bool := o.prefillSequences.isEmpty && o.decodeSequences.isEmpty

def seqIds (o : SchedulerOutput) : List SeqId :=
  (o.prefillSequences ++ o.decodeSequences).map (·.seqId)

end SchedulerOutput

structure ExecutionBatch where
  inputTokens : List TokenId := []
  positions : List Nat := []
  seqLens : List Nat := []
  blockTables : List (List BlockIdx) := []
  isPrefill : List Bool := []
  seqIds : List SeqId := []
  contextLens : List Nat := []
  deriving DecidableEq

def ExecutionBatch.isEmpty (b : ExecutionBatch) : Bool := b.seqIds.isEmpty

structure ExecutionOutput where
  nextTokens : List TokenId := []
  seqIds : List SeqId := []
  logprobs : List (Option TokenLogprobs) := []
  deriving DecidableEq

structure MemoryStats where
  totalBlocks : Nat
  usedBlocks : Nat
  freeBlocks : Nat
  numSequences : Nat

/-- Fraction of the pool in use, as the `f32` the thresholds are compared with. -/
def MemoryStats.utilization (m : MemoryStats) : F32 :=
  if m.totalBlocks = 0 then .finite 0
  else (F32.ofNat m.usedBlocks).div (F32.ofNat m.totalBlocks)

end PagedServing
