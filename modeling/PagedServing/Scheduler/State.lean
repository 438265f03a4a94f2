import PagedServing.KvCache.Manager

/-! # Continuous batching scheduler

`src/scheduler.rs`. The two `BTreeMap`s of active sequences are iterated in
ascending `seq_id` order; queues and buffers are lists, oldest entry first.
-/

namespace PagedServing

open FixedWidth

/-- The reason prefix by which the engine recognises a client cancellation. -/
def cancelReasonPrefix : String := "request cancelled"

structure PendingRequest where
  seqId : SeqId
  request : Request
  deriving DecidableEq

structure Scheduler where
  config : EngineConfig
  kvCache : KVCacheManager
  pendingQueue : List PendingRequest
  prefillSequences : IdMap Sequence
  decodeSequences : IdMap Sequence
  completedRequests : List (SeqId × Request)
  nextSeqId : SeqId
  underMemoryPressure : Bool

/-- `request.state = RequestState::Failed(reason)`. -/
def Request.fail (r : Request) (reason : String) : Request := { r with state := .failed reason }

/-- Keep the first tokens only and remember that a stop sequence ended the request. -/
def Sequence.stopAt (seq : Sequence) (keepTokens : Nat) : Sequence :=
  { seq with
    request := { seq.request with
      outputTokens := seq.request.outputTokens.take keepTokens
      logprobs := seq.request.logprobs.take keepTokens
      stopSequenceHit := true } }

namespace Scheduler

def new (config : EngineConfig) : Scheduler where
  config := config
  kvCache := KVCacheManager.new config.maxNumBlocks.toNat config.blockSize.toNat
  pendingQueue := []
  prefillSequences := ∅
  decodeSequences := ∅
  completedRequests := []
  nextSeqId := 1
  underMemoryPressure := false

def numActiveSequences (s : Scheduler) : Nat := s.prefillSequences.size + s.decodeSequences.size

def hasPendingWork (s : Scheduler) : Bool :=
  !s.pendingQueue.isEmpty || !s.prefillSequences.isEmpty || !s.decodeSequences.isEmpty

/-- The active sequences in the order `prefill.values().chain(decode.values())`. -/
def activeSequences (s : Scheduler) : List Sequence :=
  IdMap.vals s.prefillSequences ++ IdMap.vals s.decodeSequences

/-! ## Admission -/

def updateMemoryPressure (s : Scheduler) : Scheduler :=
  { s with
    underMemoryPressure :=
      F32.le s.config.memoryThreshold s.kvCache.getMemoryStats.utilization }

def addRequest (s : Scheduler) (request : Request) : Except EngineError SeqId × Scheduler :=
  let s := s.updateMemoryPressure
  if s.underMemoryPressure then (.error .memoryPressure, s)
  else if s.config.maxNumSeqs.toNat ≤ s.pendingQueue.length + s.numActiveSequences then
    (.error (.maxConcurrentSequencesReached s.config.maxNumSeqs), s)
  else
    (.ok s.nextSeqId,
      { s with
        nextSeqId := s.nextSeqId + 1
        pendingQueue := s.pendingQueue ++ [⟨s.nextSeqId, request⟩] })

/-- Does a prefill need one more block in the step after its first token? -/
def prefillNeedsDecodeReserve (s : Scheduler) (promptTokens : Nat) : Bool :=
  s.config.blocksForTokens promptTokens < s.config.blocksForTokens (saturatingAdd promptTokens 2)

/-- Blocks the sequences in flight will ask for in the growth after this step. -/
def nextStepGrowthReserve (s : Scheduler) : Nat :=
  asU32 (s.activeSequences.filter fun seq =>
    let afterThisStep := saturatingAdd seq.contextLen 1
    asU32 seq.logicalBlocks.length < s.config.blocksForTokens (saturatingAdd afterThisStep 1)).length

/-- `floor(total_blocks * memory_threshold)` as an `f32`. -/
def watermark (s : Scheduler) : F32 :=
  ((F32.ofNat s.kvCache.getMemoryStats.totalBlocks).mul s.config.memoryThreshold).floor

def hasPrefillBudget (s : Scheduler) (blocksNeeded promptTokens : Nat) : Bool :=
  let stats := s.kvCache.getMemoryStats
  let usedAfter := saturatingAdd stats.usedBlocks blocksNeeded
  let freeAfter := stats.freeBlocks - blocksNeeded
  let reserve := saturatingAdd s.nextStepGrowthReserve
    (s.prefillNeedsDecodeReserve promptTokens).toNat
  F32.le (F32.ofNat usedAfter) s.watermark && decide (reserve ≤ freeAfter)

/-! ## Transitions of one sequence -/

def tryStartPrefill (s : Scheduler) (seqId : SeqId) (request : Request) :
    Except (SeqId × Request) SeqId × Scheduler :=
  let numTokens := asU32 request.inputTokens.length
  let blocksNeeded := s.config.blocksForTokens numTokens
  if !s.kvCache.canAllocate blocksNeeded then (.error (seqId, request), s)
  else
    match s.kvCache.allocateSequence seqId numTokens with
    | (.error _, kvCache) => (.error (seqId, request), { s with kvCache := kvCache })
    | (.ok _, kvCache) =>
        let sequence := Sequence.new seqId { request with state := .prefill }
        let sequence :=
          match kvCache.getBlockTable seqId with
          | some blockTable => { sequence with logicalBlocks := blockTable.map PhysicalBlockRef.mk }
          | none => sequence
        (.ok seqId,
          { s with
            kvCache := kvCache
            prefillSequences := s.prefillSequences.insert seqId sequence })

def growDecodeSequence (s : Scheduler) (seqId : SeqId) : Except String Unit × Scheduler :=
  match s.decodeSequences[seqId]? with
  | none => (.error s!"Decode sequence not found: {seqId}", s)
  | some seq =>
      let currentTokens := seq.contextLen
      let currentBlocks := asU32 seq.logicalBlocks.length
      let blocksNeeded := s.config.blocksForTokens (saturatingAdd currentTokens 1)
      if currentBlocks < blocksNeeded then
        match s.kvCache.allocateBlock seqId with
        | (.ok physicalRef, kvCache) =>
            (.ok (),
              { s with
                kvCache := kvCache
                decodeSequences := s.decodeSequences.insert seqId
                  { seq with logicalBlocks := seq.logicalBlocks ++ [physicalRef] } })
        | (.error err, kvCache) =>
            (.error ("Failed to allocate KV block: " ++ err.display), { s with kvCache := kvCache })
      else (.ok (), s)

def transitionPrefillToDecode (s : Scheduler) (seqId : SeqId) : Scheduler :=
  match s.prefillSequences[seqId]? with
  | none => s
  | some seq =>
      { s with
        prefillSequences := s.prefillSequences.erase seqId
        decodeSequences := s.decodeSequences.insert seqId
          { seq with request := { seq.request with state := .decode } } }

/-- Retire an active sequence in a terminal state: `complete_sequence`, and the
active part of `fail_sequence`. `none` when the sequence is not active. -/
def retire (s : Scheduler) (seqId : SeqId) (state : RequestState) : Option Scheduler :=
  match s.decodeSequences[seqId]? with
  | some seq =>
      some { s with
        decodeSequences := s.decodeSequences.erase seqId
        kvCache := s.kvCache.freeSequence seqId
        completedRequests :=
          s.completedRequests ++ [(seqId, { seq.request with state := state })] }
  | none =>
      match s.prefillSequences[seqId]? with
      | some seq =>
          some { s with
            prefillSequences := s.prefillSequences.erase seqId
            kvCache := s.kvCache.freeSequence seqId
            completedRequests :=
              s.completedRequests ++ [(seqId, { seq.request with state := state })] }
      | none => none

def completeSequence (s : Scheduler) (seqId : SeqId) : Scheduler :=
  (s.retire seqId .completed).getD s

def failSequence (s : Scheduler) (seqId : SeqId) (reason : String) : Scheduler :=
  match s.retire seqId (.failed reason) with
  | some s => s
  | none =>
      match s.pendingQueue.findIdx? (·.seqId = seqId) with
      | none => s
      | some index =>
          match s.pendingQueue[index]? with
          | none => s
          | some pending =>
              { s with
                pendingQueue := s.pendingQueue.eraseIdx index
                completedRequests :=
                  s.completedRequests ++ [(seqId, pending.request.fail reason)] }

def failSequences (s : Scheduler) (seqIds : List SeqId) (reason : String) : Scheduler :=
  seqIds.foldl (fun s seqId => s.failSequence seqId reason) s

/-! ## Queries and terminations by request id -/

/-- The search `pending, then prefill, then decode` for a request id. -/
def findSeqId (s : Scheduler) (requestId : RequestId) : Option SeqId :=
  match s.pendingQueue.find? (·.request.id = requestId) with
  | some pending => some pending.seqId
  | none => (s.activeSequences.find? (·.request.id = requestId)).map (·.seqId)

def failByRequestId (s : Scheduler) (requestId : RequestId) (reason : String) :
    Bool × Scheduler :=
  match s.findSeqId requestId with
  | some seqId => (true, s.failSequence seqId reason)
  | none => (false, s)

def cancelByRequestId (s : Scheduler) (requestId : RequestId) : Bool × Scheduler :=
  s.failByRequestId requestId (cancelReasonPrefix ++ ": client disconnected")

def getRequestById (s : Scheduler) (requestId : RequestId) : Option Request :=
  match s.pendingQueue.find? (·.request.id = requestId) with
  | some pending => some pending.request
  | none =>
      match s.activeSequences.find? (·.request.id = requestId) with
      | some seq => some seq.request
      | none => (s.completedRequests.find? (·.2.id = requestId)).map (·.2)

/-- Write back an active sequence under its id, `prefill.get_mut(..).or(decode.get_mut(..))`. -/
def truncateActive (s : Scheduler) (seqId : SeqId) (keepTokens : Nat) : Scheduler :=
  match s.prefillSequences[seqId]? with
  | some seq =>
      { s with prefillSequences :=
          s.prefillSequences.insert seqId (seq.stopAt keepTokens) }
  | none =>
      match s.decodeSequences[seqId]? with
      | some seq =>
          { s with decodeSequences :=
              s.decodeSequences.insert seqId (seq.stopAt keepTokens) }
      | none => s

def completeByStopSequence (s : Scheduler) (requestId : RequestId) (keepTokens : Nat) :
    Bool × Scheduler :=
  match s.activeSequences.find? (·.request.id = requestId) with
  | some seq => (true, (s.truncateActive seq.seqId keepTokens).completeSequence seq.seqId)
  | none => (false, s)

def failPendingRequests (s : Scheduler) (reason : String) : Nat × Scheduler :=
  (s.pendingQueue.length,
    { s with
      pendingQueue := []
      completedRequests := s.completedRequests ++ s.pendingQueue.map fun pending =>
        (pending.seqId, pending.request.fail s!"{reason}（request {pending.request.id}）") })

def takeCompletedWithSeqIds (s : Scheduler) : List (SeqId × Request) × Scheduler :=
  (s.completedRequests, { s with completedRequests := [] })

def getCompleted (s : Scheduler) : List Request × Scheduler :=
  (s.completedRequests.map (·.2), { s with completedRequests := [] })

end Scheduler

end PagedServing
