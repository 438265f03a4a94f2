import PagedServing.Executor.Forward

/-! # Series of executor calls

The reference executor keeps nothing but the tokens each sequence was fed. A caller
keeps the block tables and the finished sequences; `Caller.Conforms` says which series
of calls it may send.
-/

namespace PagedServing

variable {V : Type}

/-! ## Caller -/

/-- The tokens of each sequence in the calls that succeeded, its last block table, and
the sequences reported as finished. -/
structure Caller where
  fed : SeqId → List TokenId := fun _ => []
  table : SeqId → List BlockIdx := fun _ => []
  finished : List SeqId := []

namespace Caller

def adopt (c : Caller) (entry : BatchEntry) : Caller :=
  { c with table := Function.update c.table entry.seqId entry.blockTable }

def feed (c : Caller) (entry : BatchEntry) : Caller :=
  { c.adopt entry with
    fed := Function.update c.fed entry.seqId (c.fed entry.seqId ++ entry.tokens) }

def feedAll (c : Caller) (entries : List BatchEntry) : Caller := entries.foldl feed c

/-- A failed call counts no tokens, but its tables may have been written. -/
def after {α : Type} (c : Caller) (entries : List BatchEntry) : Except EngineError α → Caller
  | .ok _ => c.feedAll entries
  | .error _ => { c.feedAll entries with fed := c.fed }

def finish (c : Caller) (ids : List SeqId) : Caller := { c with finished := c.finished ++ ids }

def observe (c : Caller) : BackendCall → Caller
  | .execute batch reply => c.after batch.entries reply
  | .sequencesFinished ids => c.finish ids

/-- The next entry of a sequence: its positions run on, and its table extends the last. -/
structure Continues (blockSize : Nat) (c : Caller) (entry : BatchEntry) : Prop where
  unfinished : entry.seqId ∉ c.finished
  tokens : entry.tokens ≠ []
  positions : entry.positions = List.range' (c.fed entry.seqId).length entry.tokens.length
  nodup : entry.blockTable.Nodup
  long : (c.fed entry.seqId).length + entry.tokens.length ≤ entry.blockTable.length * blockSize
  extend : c.table entry.seqId <+: entry.blockTable

/-- Its table shares no block with that of another unfinished sequence. -/
structure Admits (blockSize : Nat) (c : Caller) (entry : BatchEntry) : Prop
    extends Continues blockSize c entry where
  disjoint : ∀ id ∉ c.finished, id ≠ entry.seqId → (c.table id).Disjoint entry.blockTable

/-- Each entry meets `P` once those before it were fed. -/
def Each (P : Caller → BatchEntry → Prop) : Caller → List BatchEntry → Prop
  | _, [] => True
  | c, entry :: rest => P c entry ∧ Each P (c.feed entry) rest

/-- Every batch is well-formed, and its entries meet `P` after the calls before it. -/
def ConformsTo (P : Caller → BatchEntry → Prop) : Caller → List BackendCall → Prop
  | _, [] => True
  | c, .execute batch reply :: rest =>
      validateBatchShape batch = .ok () ∧ Each P c batch.entries ∧
        ConformsTo P (c.after batch.entries reply) rest
  | c, .sequencesFinished ids :: rest => ConformsTo P (c.finish ids) rest

def Conforms (blockSize : Nat) (c : Caller) (calls : List BackendCall) : Prop :=
  ConformsTo (Admits blockSize) c calls

variable (c : Caller) (entry : BatchEntry) {id : SeqId}

theorem feed_fed_self : (c.feed entry).fed entry.seqId = c.fed entry.seqId ++ entry.tokens :=
  Function.update_self ..

theorem feed_fed_ne (hne : id ≠ entry.seqId) : (c.feed entry).fed id = c.fed id :=
  Function.update_of_ne hne ..

theorem feed_fed_prefix (id : SeqId) : c.fed id <+: (c.feed entry).fed id := by
  by_cases heq : id = entry.seqId
  · subst heq
    rw [feed_fed_self]
    exact List.prefix_append ..
  · rw [feed_fed_ne c entry heq]

theorem adopt_table_self : (c.adopt entry).table entry.seqId = entry.blockTable :=
  Function.update_self ..

theorem adopt_table_ne (hne : id ≠ entry.seqId) : (c.adopt entry).table id = c.table id :=
  Function.update_of_ne hne ..

/-! ### What a batch adds for one sequence -/

/-- The table of the last entry, or `table` where there is none. -/
def lastTable (table : List BlockIdx) (entries : List BatchEntry) : List BlockIdx :=
  (entries.getLast?.map (·.blockTable)).getD table

theorem lastTable_append (table : List BlockIdx) (entries more : List BatchEntry) :
    lastTable table (entries ++ more) = lastTable (lastTable table entries) more := by
  rw [lastTable, lastTable, lastTable, List.getLast?_append]
  cases more.getLast? <;> rfl

theorem lastTable_prefix {table : List BlockIdx} {entries : List BatchEntry}
    (h : ∀ entry ∈ entries, entry.blockTable <+: table) : lastTable [] entries <+: table := by
  rw [lastTable]
  cases hlast : entries.getLast? with
  | none => exact List.nil_prefix
  | some last => exact h last (List.mem_of_getLast? hlast)

variable (id : SeqId) (entries : List BatchEntry)

theorem feedAll_finished : (c.feedAll entries).finished = c.finished := by
  induction entries generalizing c with
  | nil => rfl
  | cons entry rest ih => exact ih (c.feed entry)

theorem feedAll_fed : (c.feedAll entries).fed id =
    c.fed id ++ (entries.filter fun entry => entry.seqId = id).flatMap (·.tokens) := by
  induction entries generalizing c with
  | nil => simp [feedAll]
  | cons entry rest ih =>
      rw [feedAll, List.foldl_cons]
      refine (ih (c.feed entry)).trans ?_
      by_cases heq : entry.seqId = id
      · subst heq
        rw [feed_fed_self, List.filter_cons_of_pos (by simp), List.flatMap_cons, List.append_assoc]
      · rw [feed_fed_ne c entry (Ne.symm heq), List.filter_cons_of_neg (by simpa using heq)]

theorem feedAll_table : (c.feedAll entries).table id =
    lastTable (c.table id) (entries.filter fun entry => entry.seqId = id) := by
  induction entries generalizing c with
  | nil => rfl
  | cons entry rest ih =>
      rw [feedAll, List.foldl_cons]
      refine (ih (c.feed entry)).trans ?_
      change lastTable ((c.adopt entry).table id) _ = _
      by_cases heq : entry.seqId = id
      · subst heq
        rw [adopt_table_self, List.filter_cons_of_pos (by simp), ← List.singleton_append,
          lastTable_append]
        rfl
      · rw [adopt_table_ne c entry (Ne.symm heq), List.filter_cons_of_neg (by simpa using heq)]

variable {α : Type} (reply : Except EngineError α)

theorem after_finished : (c.after entries reply).finished = c.finished := by
  cases reply with
  | ok a => exact feedAll_finished c entries
  | error e => exact feedAll_finished c entries

theorem after_table : (c.after entries reply).table id =
    lastTable (c.table id) (entries.filter fun entry => entry.seqId = id) := by
  cases reply with
  | ok a => exact feedAll_table c id entries
  | error e => exact feedAll_table c id entries

theorem after_fed_of_filter (h : (entries.filter fun entry => entry.seqId = id) = []) :
    (c.after entries reply).fed id = c.fed id := by
  cases reply with
  | ok a =>
      rw [after, feedAll_fed, h]
      exact List.append_nil _
  | error e => rfl

/-- Entries that do not hinder each other may be checked before any is fed. -/
theorem Each.of_pairwise {P : Caller → BatchEntry → Prop} {Q : BatchEntry → BatchEntry → Prop}
    (hfeed : ∀ {c : Caller} {entry later : BatchEntry}, Q entry later → P c later →
      P (c.feed entry) later) {c : Caller} {entries : List BatchEntry}
    (hpair : entries.Pairwise Q) (h : ∀ entry ∈ entries, P c entry) : c.Each P entries := by
  induction entries generalizing c with
  | nil => trivial
  | cons entry rest ih =>
      obtain ⟨hfirst, hrest⟩ := List.pairwise_cons.1 hpair
      exact ⟨h entry List.mem_cons_self, ih hrest fun later hmem =>
        hfeed (hfirst later hmem) (h later (List.mem_cons_of_mem _ hmem))⟩

theorem Continues.feed {blockSize : Nat} {c : Caller} {entry later : BatchEntry}
    (hne : entry.seqId ≠ later.seqId) (h : Continues blockSize c later) :
    Continues blockSize (c.feed entry) later := by
  have hfed : (c.feed entry).fed later.seqId = c.fed later.seqId := feed_fed_ne c entry hne.symm
  have htable : (c.feed entry).table later.seqId = c.table later.seqId :=
    adopt_table_ne c entry hne.symm
  exact ⟨h.unfinished, h.tokens, by rw [hfed]; exact h.positions, h.nodup,
    by rw [hfed]; exact h.long, by rw [htable]; exact h.extend⟩

theorem Admits.feed {blockSize : Nat} {c : Caller} {entry later : BatchEntry}
    (hpair : entry.seqId ≠ later.seqId ∧ entry.blockTable.Disjoint later.blockTable)
    (h : Admits blockSize c later) : Admits blockSize (c.feed entry) later := by
  refine ⟨h.toContinues.feed hpair.1, fun id hid hne => ?_⟩
  change ((c.adopt entry).table id).Disjoint later.blockTable
  by_cases heq : id = entry.seqId
  · subst heq
    rw [adopt_table_self]
    exact hpair.2
  · rw [adopt_table_ne c entry heq]
    exact h.disjoint id hid hne

theorem ConformsTo.append {P : Caller → BatchEntry → Prop} {c : Caller}
    {calls more : List BackendCall} : ConformsTo P c (calls ++ more) ↔
      ConformsTo P c calls ∧ ConformsTo P (calls.foldl observe c) more := by
  induction calls generalizing c with
  | nil => simp [ConformsTo]
  | cons call rest ih =>
      cases call with
      | execute batch reply =>
          rw [List.cons_append, ConformsTo, ConformsTo, ih, and_assoc, and_assoc]
          rfl
      | sequencesFinished ids =>
          rw [List.cons_append, ConformsTo, ConformsTo, ih]
          rfl

end Caller

/-! ## Reference executor -/

/-- Each sequence has a contiguous reference model of its own. -/
structure ReferenceExecutor (V : Type) where
  maxBatchSize : UInt32
  maxTotalTokens : UInt32
  vocabSize : Nat
  model : CpuModel V
  fed : SeqId → List TokenId := fun _ => []

namespace ReferenceExecutor

def new (config : EngineConfig) (vocabSize : Nat) (model : CpuModel V) : ReferenceExecutor V where
  maxBatchSize := config.maxBatchSize
  maxTotalTokens := config.maxTotalTokens
  vocabSize := vocabSize
  model := model

def feed (r : ReferenceExecutor V) (entry : BatchEntry) : ReferenceExecutor V :=
  { r with fed := Function.update r.fed entry.seqId (r.fed entry.seqId ++ entry.tokens) }

def executeEntries : List BatchEntry → ReferenceExecutor V →
    Except EngineError (List (TokenId × TokenLogprobs)) × ReferenceExecutor V
  | [], r => (.ok [], r)
  | entry :: rest, r =>
      match r.model.reference r.vocabSize (r.fed entry.seqId ++ entry.tokens) with
      | none => (.error .invalidOutput, r)
      | some (hidden, _) =>
          match executeEntries rest (r.feed entry) with
          | (.error e, r') => (.error e, r')
          | (.ok tail, r') => (.ok (r.model.sample hidden :: tail), r')

/-- The limits are those of the paged executor; a failed batch leaves no trace. -/
def execute (r : ReferenceExecutor V) (batch : ExecutionBatch) :
    Except EngineError ExecutionOutput × ReferenceExecutor V :=
  if batch.isEmpty then (.ok {}, r)
  else if r.vocabSize = 0 then
    (.error (.backendError "CPU executor received an empty vocabulary"), r)
  else if r.maxBatchSize.toNat < batch.seqIds.length then
    (.error (.kernelLaunchFailed <| s!"Batch size {batch.seqIds.length} exceeds max "
      ++ toString r.maxBatchSize), r)
  else if r.maxTotalTokens.toNat < batch.inputTokens.length then
    (.error (.kernelLaunchFailed <| s!"Total tokens {batch.inputTokens.length} exceeds max "
      ++ toString r.maxTotalTokens), r)
  else
    match executeEntries batch.entries r with
    | (.error e, _) => (.error e, r)
    | (.ok rows, r) =>
        (.ok
          { nextTokens := rows.map (·.1)
            seqIds := batch.seqIds
            logprobs := rows.map fun row => some row.2 }, r)

instance : GPUExecutorTrait (ReferenceExecutor V) where
  execute := execute

/-- The limits and the model of the paged executor, and the tokens its caller has fed. -/
structure Mirrors (r : ReferenceExecutor V) (x : CpuReferenceExecutor V) (c : Caller) : Prop where
  maxBatchSize : r.maxBatchSize = x.config.maxBatchSize
  maxTotalTokens : r.maxTotalTokens = x.config.maxTotalTokens
  vocabSize : r.vocabSize = x.vocabSize
  model : r.model = x.model
  fed : r.fed = c.fed

namespace Mirrors

variable {r : ReferenceExecutor V} {x x' : CpuReferenceExecutor V} {c : Caller}
  {entry : BatchEntry}

theorem feed (h : r.Mirrors x c) : (r.feed entry).Mirrors x (c.feed entry) :=
  ⟨h.maxBatchSize, h.maxTotalTokens, h.vocabSize, h.model, by
    rw [ReferenceExecutor.feed, Caller.feed, h.fed]⟩

theorem of_touches {blockTable : List BlockIdx} (h : r.Mirrors x c)
    (ht : x.Touches blockTable x') : r.Mirrors x' c :=
  ⟨by rw [ht.config, h.maxBatchSize], by rw [ht.config, h.maxTotalTokens],
    by rw [ht.vocabSize, h.vocabSize], by rw [ht.model, h.model], h.fed⟩

end Mirrors

end ReferenceExecutor

/-! ## Series of calls -/

inductive ExecutorCall where
  | execute (batch : ExecutionBatch)
  | sequencesFinished (seqIds : List SeqId)

/-- Make the calls one after the other, and keep the answers. -/
def runCalls {σ : Type} [GPUExecutorTrait σ] : List ExecutorCall → σ → List BackendCall × σ
  | [], x => ([], x)
  | .execute batch :: rest, x =>
      let (reply, x) := GPUExecutorTrait.execute x batch
      let (log, x) := runCalls rest x
      (.execute batch reply :: log, x)
  | .sequencesFinished ids :: rest, x =>
      let (log, x) := runCalls rest (GPUExecutorTrait.sequencesFinished x ids)
      (.sequencesFinished ids :: log, x)

theorem runCalls_length {σ : Type} [GPUExecutorTrait σ] (calls : List ExecutorCall) (x : σ) :
    (runCalls calls x).1.length = calls.length := by
  induction calls generalizing x with
  | nil => rfl
  | cons call rest ih =>
      cases call with
      | execute batch => exact congrArg (· + 1) (ih _)
      | sequencesFinished ids => exact congrArg (· + 1) (ih _)

/-- The call of a log entry, without its answer. -/
def BackendCall.call : BackendCall → ExecutorCall
  | .execute batch _ => .execute batch
  | .sequencesFinished ids => .sequencesFinished ids

theorem runCalls_append {σ : Type} [GPUExecutorTrait σ] (calls more : List ExecutorCall) (x : σ) :
    runCalls (calls ++ more) x =
      ((runCalls calls x).1 ++ (runCalls more (runCalls calls x).2).1,
        (runCalls more (runCalls calls x).2).2) := by
  induction calls generalizing x with
  | nil => rfl
  | cons call rest ih =>
      cases call with
      | execute batch => simp only [List.cons_append, runCalls, ih]
      | sequencesFinished ids => simp only [List.cons_append, runCalls, ih]

end PagedServing
