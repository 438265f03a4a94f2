import PagedServing.Scheduler.State

/-! # The scheduling pass and the update after a batch

`Scheduler::schedule` walks the decode sequences, the prefills in flight and the
pending queue with shared counters; each loop is a recursion over what it iterates,
and a `break` returns the accumulated state.
-/

namespace PagedServing

open FixedWidth

/-- The locals that the three loops of `schedule` share. -/
structure ScheduleState where
  scheduler : Scheduler
  output : SchedulerOutput := {}
  totalTokens : Nat := 0
  numSequences : Nat := 0

namespace ScheduleState

def withScheduler (st : ScheduleState) (s : Scheduler) : ScheduleState := { st with scheduler := s }

def pushDecode (st : ScheduleState) (seq : Sequence) : ScheduleState :=
  { st with
    output := { st.output with decodeSequences := st.output.decodeSequences ++ [seq] }
    totalTokens := saturatingAdd st.totalTokens 1
    numSequences := st.numSequences + 1 }

def pushPrefill (st : ScheduleState) (seq : Sequence) (prefillTokens : Nat) : ScheduleState :=
  { st with
    output := { st.output with prefillSequences := st.output.prefillSequences ++ [seq] }
    totalTokens := saturatingAdd st.totalTokens prefillTokens
    numSequences := st.numSequences + 1 }

end ScheduleState

namespace Scheduler

/-- The order `(Reverse(priority), seq_id)`. -/
def schedulesBefore (a b : UInt8 × SeqId) : Prop := b.1 < a.1 ∨ a.1 = b.1 ∧ a.2 ≤ b.2

instance : DecidableRel schedulesBefore :=
  fun a b => inferInstanceAs (Decidable (b.1 < a.1 ∨ a.1 = b.1 ∧ a.2 ≤ b.2))

/-- Ids of a map of sequences, by priority and then by id. -/
def sortedSeqIds (sequences : IdMap Sequence) : List SeqId :=
  let priority (seqId : SeqId) : UInt8 :=
    match sequences[seqId]? with
    | some seq => seq.request.params.priority
    | none => 0
  (sequences.keys).insertionSort fun a b => schedulesBefore (priority a, a) (priority b, b)

def decodeSeqIds (s : Scheduler) : List SeqId := sortedSeqIds s.decodeSequences

def prefillCandidates (s : Scheduler) : List SeqId := sortedSeqIds s.prefillSequences

def inputTooLarge (prefillTokens : Nat) (limit : UInt32) : String :=
  s!"Input tokens {prefillTokens} exceed max_total_tokens {limit}"

def blocksTooMany (blocksNeeded : Nat) (limit : UInt32) : String :=
  s!"Required blocks {blocksNeeded} exceed max_num_blocks {limit}"

def aboveWatermark (blocksNeeded watermarkBlocks : Nat) (config : EngineConfig) : String :=
  s!"Required blocks {blocksNeeded} exceed memory watermark {watermarkBlocks} (max_num_blocks "
    ++ toString config.maxNumBlocks ++ ", threshold " ++ config.memoryThreshold.display
    ++ "); this prompt can never be scheduled"

/-! ## Decode sequences first -/

def scheduleDecode : List SeqId → ScheduleState → ScheduleState
  | [], st => st
  | seqId :: rest, st =>
      let config := st.scheduler.config
      if config.maxBatchSize.toNat ≤ st.numSequences then st
      else if config.maxTotalTokens.toNat < saturatingAdd st.totalTokens 1 then st
      else
        match st.scheduler.growDecodeSequence seqId with
        | (.error reason, s) => scheduleDecode rest (st.withScheduler (s.failSequence seqId reason))
        | (.ok _, s) =>
            match s.decodeSequences[seqId]? with
            | some seq => scheduleDecode rest ((st.withScheduler s).pushDecode seq)
            | none => scheduleDecode rest (st.withScheduler s)

/-! ## Prefills already in flight -/

def schedulePrefill : List SeqId → ScheduleState → ScheduleState
  | [], st => st
  | seqId :: rest, st =>
      let s := st.scheduler
      if s.config.maxBatchSize.toNat ≤ st.numSequences then st
      else
        match s.prefillSequences[seqId]? with
        | none => schedulePrefill rest st
        | some seq =>
            let prefillTokens := asU32 seq.request.inputTokens.length
            let blocksNeeded := s.config.blocksForTokens prefillTokens
            if s.config.maxTotalTokens.toNat < prefillTokens then
              schedulePrefill rest <| st.withScheduler <|
                s.failSequence seqId (inputTooLarge prefillTokens s.config.maxTotalTokens)
            else if s.config.maxNumBlocks.toNat < blocksNeeded then
              schedulePrefill rest <| st.withScheduler <|
                s.failSequence seqId (blocksTooMany blocksNeeded s.config.maxNumBlocks)
            else if s.config.maxTotalTokens.toNat < saturatingAdd st.totalTokens prefillTokens then
              schedulePrefill rest st
            else schedulePrefill rest (st.pushPrefill seq prefillTokens)

/-! ## New prefills from the pending queue -/

def sortPending (queue : List PendingRequest) : List PendingRequest :=
  queue.insertionSort fun a b =>
    schedulesBefore (a.request.params.priority, a.seqId) (b.request.params.priority, b.seqId)

/-- `pending_queue.push_back(..)` of a candidate that stays. -/
def requeue (s : Scheduler) (pending : PendingRequest) : Scheduler :=
  { s with pendingQueue := s.pendingQueue ++ [pending] }

/-- A candidate that can never run is failed instead of being put back. -/
def rejectPending (s : Scheduler) (pending : PendingRequest) (reason : String) : Scheduler :=
  { s with
    completedRequests := s.completedRequests ++ [(pending.seqId, pending.request.fail reason)] }

/-- The body of the scan, on a candidate already popped from the queue of `st`. -/
def considerPending (st : ScheduleState) (pending : PendingRequest) : ScheduleState :=
  let s := st.scheduler
  let prefillTokens := asU32 pending.request.inputTokens.length
  let blocksNeeded := s.config.blocksForTokens prefillTokens
  if s.config.maxBatchSize.toNat ≤ st.numSequences then st.withScheduler (s.requeue pending)
  else if s.config.maxTotalTokens.toNat < prefillTokens then
    st.withScheduler <|
      s.rejectPending pending (inputTooLarge prefillTokens s.config.maxTotalTokens)
  else if s.config.maxNumBlocks.toNat < blocksNeeded then
    st.withScheduler <|
      s.rejectPending pending (blocksTooMany blocksNeeded s.config.maxNumBlocks)
  else if s.config.maxTotalTokens.toNat < saturatingAdd st.totalTokens prefillTokens then
    st.withScheduler (s.requeue pending)
  else if s.watermark.toU32 < blocksNeeded then
    st.withScheduler <|
      s.rejectPending pending (aboveWatermark blocksNeeded s.watermark.toU32 s.config)
  else if !s.hasPrefillBudget blocksNeeded prefillTokens then
    st.withScheduler (s.requeue pending)
  else
    match s.tryStartPrefill pending.seqId pending.request with
    | (.ok seqId, s) =>
        match s.prefillSequences[seqId]? with
        | some seq => (st.withScheduler s).pushPrefill seq prefillTokens
        | none => st.withScheduler s
    | (.error (seqId, request), s) => st.withScheduler (s.requeue ⟨seqId, request⟩)

/-- One pass over the queue as long as it was when the scan began. -/
def scanPending : Nat → ScheduleState → ScheduleState
  | 0, st => st
  | n + 1, st =>
      match st.scheduler.pendingQueue with
      | [] => st
      | pending :: queue =>
          scanPending n <|
            considerPending (st.withScheduler { st.scheduler with pendingQueue := queue }) pending

def schedulePending (st : ScheduleState) : ScheduleState :=
  if st.scheduler.underMemoryPressure then st
  else
    let queue := sortPending st.scheduler.pendingQueue
    scanPending queue.length (st.withScheduler { st.scheduler with pendingQueue := queue })

def schedule (s : Scheduler) : SchedulerOutput × Scheduler :=
  let s := s.updateMemoryPressure
  let st := scheduleDecode s.decodeSeqIds { scheduler := s }
  let st := schedulePrefill st.scheduler.prefillCandidates st
  let st := schedulePending st
  ({ st.output with totalTokens := st.totalTokens }, st.scheduler)

/-! ## After the batch -/

def missingToken (seqId : SeqId) : String :=
  s!"Malformed execution output: missing next token for seq_id {seqId}"

def unknownSeqId (seqId : SeqId) : String :=
  s!"Malformed execution output: unknown seq_id {seqId}"

end Scheduler

/-- One generated token reaches its sequence, with the logprobs entry of its row. -/
def Sequence.appendToken (seq : Sequence) (token : TokenId)
    (logprobs : Option (Option TokenLogprobs)) : Sequence :=
  { seq with
    request := { seq.request with
      outputTokens := seq.request.outputTokens ++ [token]
      logprobs :=
        match seq.request.params.logprobs, logprobs with
        | some _, some (some entry) => seq.request.logprobs ++ [entry]
        | _, _ => seq.request.logprobs }
    numGeneratedTokens := asU32 (seq.numGeneratedTokens + 1) }

/-- The completion test of `update_sequences`. -/
def Request.isFinished (r : Request) (maxModelLen : Nat) (eosTokenId : TokenId) : Bool :=
  decide (maxModelLen ≤ r.totalTokens) || r.isComplete eosTokenId

namespace Scheduler

/-- The locals of `update_sequences`: the two deferred lists. -/
structure UpdateState where
  scheduler : Scheduler
  toFail : List (SeqId × String) := []
  toComplete : List SeqId := []

/-- Row `index` of the execution output. -/
def updateRow (outputs : ExecutionOutput) (eosTokenId : TokenId) (st : UpdateState) (index : Nat)
    (seqId : SeqId) : UpdateState :=
  match outputs.nextTokens[index]? with
  | none => { st with toFail := st.toFail ++ [(seqId, missingToken seqId)] }
  | some nextToken =>
      let s := st.scheduler.transitionPrefillToDecode seqId
      match s.decodeSequences[seqId]? with
      | some seq =>
          let seq := seq.appendToken nextToken outputs.logprobs[index]?
          let s := { s with decodeSequences := s.decodeSequences.insert seqId seq }
          if seq.request.isFinished s.config.maxModelLen.toNat eosTokenId then
            { st with scheduler := s, toComplete := st.toComplete ++ [seqId] }
          else { st with scheduler := s }
      | none =>
          { st with scheduler := s, toFail := st.toFail ++ [(seqId, unknownSeqId seqId)] }

def updateRows (outputs : ExecutionOutput) (eosTokenId : TokenId) :
    Nat → List SeqId → UpdateState → UpdateState
  | _, [], st => st
  | index, seqId :: rest, st =>
      updateRows outputs eosTokenId (index + 1) rest (updateRow outputs eosTokenId st index seqId)

def failAll (s : Scheduler) (failures : List (SeqId × String)) : Scheduler :=
  failures.foldl (fun s failure => s.failSequence failure.1 failure.2) s

def completeAll (s : Scheduler) (seqIds : List SeqId) : Scheduler :=
  seqIds.foldl completeSequence s

def updateSequences (s : Scheduler) (outputs : ExecutionOutput) (eosTokenId : TokenId) :
    Scheduler :=
  let st := updateRows outputs eosTokenId 0 outputs.seqIds { scheduler := s }
  (st.scheduler.failAll st.toFail).completeAll st.toComplete

end Scheduler

end PagedServing
