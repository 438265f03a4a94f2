import PagedServing.Engine.BackendLifecycle
import PagedServing.Executor.ForeignCalls

/-! # The engine over the C interface

Every batch the engine sends fits the casts of the executor, and nothing is sent of a sequence that
has finished. So the library gets its calls in order, whatever it answers, and a drained engine has
given back everything it reserved.
-/

namespace PagedServing

open Scheduler FixedWidth SignedWord

/-! ## What the engine sends -/

namespace Session

section Batches

variable {σ τ δ : Type} [IncrementalDecoder δ] [TokenizerTrait τ δ] {x : Setting τ}
  {answer : List TokenId → TokenId → Prop} {R : σ → Fed → Prop} {s : Session σ τ δ}

/-- The table of a scheduled sequence lists blocks of the pool. -/
theorem Inv.blocks_listed (hi : s.Inv answer R x) {seq : Sequence}
    (hseq : seq ∈ s.engine.output.prefillSequences ++ s.engine.output.decodeSequences) :
    seq.getBlockTable.length ≤ x.config.maxNumBlocks.toNat ∧
      ∀ blockIdx ∈ seq.getBlockTable, blockIdx < x.config.maxNumBlocks.toNat := by
  have hw := (InferenceEngine.scheduled_sound hi.sound).wf
  obtain ⟨table, htable, heq⟩ :=
    hw.exists_table (InferenceEngine.output_eq_active hi.sound seq hseq)
  have hconfig : s.engine.scheduled.scheduler.config = x.config :=
    (Moves.evolves hi.sound.wf (schedule_moves hi.sound.wf)).config.trans hi.config
  have hpool := hconfig ▸ hw.poolSize
  have hlength := hw.kvCache.ledger.length_units_le htable
  rw [hpool, heq] at hlength
  refine ⟨by omega, fun blockIdx hmem => ?_⟩
  exact hpool ▸ hw.kvCache.ledger.lt_of_mem_units htable (heq ▸ hmem)

theorem Inv.entry_portable (hi : s.Inv answer R x) (hfits : x.config.FitsCInt) {entry : BatchEntry}
    (hentry : entry ∈ s.engine.output.entries) (htable : entry.blockTable ≠ []) :
    entry.Portable x.config := by
  obtain ⟨seq, hseq, hlists⟩ := SchedulerOutput.exists_lists hentry
  obtain ⟨r, hr, w, entry', d, hw, ht, hsched, hcont, hlists'⟩ := hi.listed_continues hseq
  obtain rfl := hlists'.unique (InferenceEngine.output_nodup hi.sound) hlists
  have hadmits := (hi.admits r hr).1
  have hbetween := Course.between_of_scheduled hadmits hw.place hsched
  have hctx : entry'.contextLen < x.config.maxModelLen.toNat := by
    have hlt := hbetween.length_lt hadmits
    have hsum := hadmits.fits
    rw [hcont.contextLen, hbetween.contextLen hadmits]
    omega
  have hmax := hfits.maxModelLen
  have hpool := hfits.maxNumBlocks
  have hblocks := hi.blocks_listed hseq
  rw [← hcont.blockTable] at hblocks
  obtain ⟨hlen, htokens, hpositions⟩ := Request.TraceLaw.fedEntry_positions hcont.fed
  have hle : entry'.tokens.length ≤ entry'.contextLen := by
    rw [htokens]
    split <;> omega
  refine ⟨by omega, hle, fun pos hmem => ?_, htable, by omega, hblocks.2⟩
  rw [hpositions, List.mem_range'_1] at hmem
  omega

theorem Inv.batch_portable (hi : s.Inv answer R x) (hfits : x.config.FitsCInt) {b : ExecutionBatch}
    (hb : s.engine.output.Builds b) (hshape : validateBatchShape b = .ok ()) :
    b.Portable x.config := by
  refine ⟨hb.cut, ?_, fun entry hentry => ?_⟩
  · rw [hb.seqIds]
    exact InferenceEngine.output_nodup hi.sound
  · exact hi.entry_portable hfits (hb.entries ▸ hentry)
      (hb.cut.entry_nonempty hshape entry hentry).2

/-- Every batch of the log fits the casts of the executor. -/
def Ships (config : EngineConfig) (s : Session σ τ δ) : Prop :=
  ∀ (b : ExecutionBatch) (reply : Except EngineError ExecutionOutput),
    .execute b reply ∈ s.calls → b.Portable config

variable [GPUExecutorTrait σ]

theorem Ships.advance (h : s.Ships x.config) (hi : s.Inv answer R x) (hfits : x.config.FitsCInt) :
    s.advance.Ships x.config := by
  have hsent : ∀ {b result pipeline},
      s.engine.executionPipeline.Sent s.engine.output b result pipeline →
      ∀ batch reply, .execute batch reply ∈ pipeline.calls → batch.Portable x.config := by
    intro b result pipeline hsent batch reply hmem
    obtain ⟨n, last, hcalls, -⟩ := hsent.attempts.calls
    have hb := hi.batch_portable hfits hsent.builds hsent.shape
    rw [hcalls, List.mem_append, List.mem_append, List.mem_replicate, List.mem_singleton] at hmem
    rcases hmem with hmem | ⟨-, heq⟩ | heq
    · exact h batch reply hmem
    · cases heq
      exact hb
    · cases heq
      exact hb
  rw [Session.advance]
  rcases InferenceEngine.advance_cases hi.prompts with
    ⟨-, heq⟩ | ⟨-, ⟨reason, heq⟩ | ⟨b, err, pipeline, hbatch, heq⟩ |
      ⟨b, output, pipeline, hbatch, heq⟩⟩
  · rw [heq]
    exact h
  · rw [heq]
    exact h
  · rw [heq]
    exact hsent hbatch
  · have hcalls := calls_served hi.sound hbatch
    rw [heq]
    intro batch reply hmem
    exact hsent hbatch batch reply (hcalls ▸ hmem)

theorem Ships.collect {config : EngineConfig} (h : s.Ships config)
    (hs : s.engine.scheduler.Sound) : s.collect.Ships config := by
  intro b reply hmem
  rw [calls_collect hs, List.mem_append] at hmem
  refine h b reply (hmem.resolve_right fun hno => ?_)
  split at hno
  · exact absurd hno List.not_mem_nil
  · cases List.mem_singleton.1 hno

theorem Ships.apply (h : s.Ships x.config) (hi : s.Inv answer R x) (hA : Answering σ answer R)
    (hsettled : Settled s.calls) (hfits : x.config.FitsCInt) (op : EngineOp) :
    (s.apply op).Ships x.config := by
  cases op with
  | submitRequest text params =>
      intro b reply hmem
      rw [Session.apply, calls_submit] at hmem
      exact h b reply hmem
  | cancelRequest requestId => exact h
  | stepEvents =>
      rw [Session.apply, step_eq hi.sound]
      exact (h.advance hi hfits).collect (hi.stage (advance_stage hA hi hsettled)).sound
  | failPendingRequests reason => exact h

theorem Reachable.ships {config : EngineConfig} {tokenizer : τ} {gpuExecutor : σ}
    (h : s.Reachable config tokenizer gpuExecutor) (hfits : config.FitsCInt) : s.Ships config :=
  h.keeps (fun _ _ hmem => absurd hmem List.not_mem_nil) fun _ op hi hsettled hships =>
    hships.apply hi (.any σ) hsettled hfits op

end Batches

end Session

/-! ## The executor as a backend -/

namespace TinyLlmExecutor

variable {η : Type} (symbols : TinyLlmSymbols η)

theorem ensureAllocated_isSome (x : TinyLlmExecutor η) (seqId : SeqId) (contextLen : Nat) :
    (x.ensureAllocated .wrapping symbols seqId contextLen).isSome = true := by
  rw [ensureAllocated]
  split
  next => rfl
  next =>
    obtain ⟨tokens, htokens, -⟩ := allocTokensFor_wrapping contextLen x.decodeReserve
    rw [htokens]
    rfl

theorem admitRow_isSome (x : TinyLlmExecutor η) (seqId : SeqId) (contextLen : Nat) :
    (x.admitRow .wrapping symbols seqId contextLen).isSome = true := by
  have hensure := x.ensureAllocated_isSome symbols seqId contextLen
  rw [admitRow]
  split
  next heq =>
    rw [heq] at hensure
    cases hensure
  next => rfl
  next =>
    split
    next => rfl
    next =>
      rw [add_wrapping]
      rfl

theorem admitRows_isSome (x : TinyLlmExecutor η) (rows : List (SeqId × Nat)) :
    (admitRows .wrapping symbols rows x).isSome = true := by
  induction rows generalizing x with
  | nil => rfl
  | cons row rest ih =>
    have hrow := x.admitRow_isSome symbols row.1 row.2
    rw [admitRows]
    split
    next => exact ih _
    next => exact hrow

/-- A build that wraps never stops. -/
theorem execute_isSome (x : TinyLlmExecutor η) (batch : ExecutionBatch) :
    (x.execute .wrapping symbols batch).isSome = true := by
  unfold execute
  dsimp only
  split
  next => rfl
  next =>
    split
    next => rfl
    next =>
      have hrows := x.admitRows_isSome symbols
        (batch.seqIds.zipIdx.map fun p => (p.1, (batch.contextLens[p.2]?).getD 0))
      split
      next heq =>
        rw [heq] at hrows
        cases hrows
      next => rfl
      next =>
        split
        next => rfl
        next => split <;> rfl

end TinyLlmExecutor

/-- `TinyLlmExecutor` in a build that wraps. -/
structure TinyLlmBackend (η : Type) where
  symbols : TinyLlmSymbols η
  executor : TinyLlmExecutor η

instance {η : Type} : GPUExecutorTrait (TinyLlmBackend η) where
  execute backend batch :=
    let (reply, executor) :=
      (backend.executor.execute .wrapping backend.symbols batch).get
        (backend.executor.execute_isSome backend.symbols batch)
    (reply, { backend with executor })
  sequencesFinished backend seqIds :=
    { backend with executor := backend.executor.sequencesFinished backend.symbols seqIds }

section Calls

variable {η : Type} {config : EngineConfig} {c : TinyLlmConfig} {sent finished : List SeqId}
  {x : TinyLlmExecutor (η × List ForeignCall)}

theorem TinyLlmExecutor.Accounts.executes (h : x.Accounts config c sent finished)
    (symbols : TinyLlmSymbols η) (hfin : ∀ n ∈ finished, n < 2 ^ 32) {b : ExecutionBatch}
    (hb : b.Portable config)
    (hids : ∀ id ∈ b.seqIds, id < 2 ^ 32 ∧ id ∉ finished) :
    ∃ y, (GPUExecutorTrait.execute (⟨symbols.logged, x⟩ : TinyLlmBackend _) b).2 =
        ⟨symbols.logged, y⟩ ∧ y.Accounts config c (sent ++ b.seqIds) finished := by
  obtain ⟨reply, y, heq, hy⟩ := h.execute symbols hfin hb hids
  refine ⟨y, ?_, hy⟩
  simp only [GPUExecutorTrait.execute, heq, Option.get_some]

/-- The library gets its calls in order as long as no batch has a sequence that was over. -/
theorem TinyLlmExecutor.Accounts.runCalls (h : x.Accounts config c sent finished)
    (symbols : TinyLlmSymbols η) (calls : List BackendCall)
    (hfin : ∀ n ∈ finished ++ finishedIds calls, n < 2 ^ 32)
    (hquiet : QuietAfter finished calls) (hsent : ∀ n ∈ sentIds calls, n < 2 ^ 32)
    (hships : ∀ (b : ExecutionBatch) (reply : Except EngineError ExecutionOutput),
      .execute b reply ∈ calls → b.Portable config) :
    ∃ y, (PagedServing.runCalls (calls.map BackendCall.call)
        (⟨symbols.logged, x⟩ : TinyLlmBackend _)).2 = ⟨symbols.logged, y⟩ ∧
      y.Accounts config c (sent ++ sentIds calls) (finished ++ finishedIds calls) := by
  induction calls generalizing x sent finished with
  | nil => exact ⟨x, rfl, by simpa [sentIds, finishedIds] using h⟩
  | cons call rest ih =>
      cases call with
      | execute b reply =>
          obtain ⟨hno, hrest⟩ := hquiet
          obtain ⟨y, heq, hy⟩ := h.executes symbols
            (fun n hn => hfin n (List.mem_append_left _ hn)) (hships b reply List.mem_cons_self)
            fun id hid => ⟨hsent id (List.mem_append_left _ hid), hno id hid⟩
          obtain ⟨z, hrun, hz⟩ := ih hy hfin hrest
            (fun n hn => hsent n (List.mem_append_right _ hn))
            fun b reply hmem => hships b reply (List.mem_cons_of_mem _ hmem)
          refine ⟨z, ?_, ?_⟩
          · rw [← heq] at hrun
            exact hrun
          · rw [List.append_assoc] at hz
            exact hz
      | sequencesFinished ids =>
          have hids : finishedIds (.sequencesFinished ids :: rest) = ids ++ finishedIds rest := rfl
          rw [hids, ← List.append_assoc] at hfin ⊢
          exact ih (h.sequencesFinished symbols ids) hfin hquiet hsent
            fun b reply hmem => hships b reply (List.mem_cons_of_mem _ hmem)

end Calls

/-! ## Sessions -/

namespace Session

variable {η τ δ : Type} [IncrementalDecoder δ] [TokenizerTrait τ δ]
  {s : Session (TinyLlmBackend (η × List ForeignCall)) τ δ}

/-- The calls the library has got. -/
def foreignCalls (s : Session (TinyLlmBackend (η × List ForeignCall)) τ δ) : List ForeignCall :=
  s.engine.executionPipeline.gpuExecutor.executor.foreignCalls

/-- As long as the sequence ids fit a `c_int`, the library gets its calls in order, and what is
reserved is reserved for sequences that are still in the scheduler. -/
theorem allowed_of_reachable {symbols : TinyLlmSymbols η} {env : String → Option String}
    {modelPath : String} {config : EngineConfig} {tokenizer : τ}
    {x : TinyLlmExecutor (η × List ForeignCall)}
    (hnew : TinyLlmExecutor.new symbols.logged env modelPath config = .ok x)
    (hfits : config.FitsCInt) (h : s.Reachable config tokenizer ⟨symbols.logged, x⟩)
    (hids : s.engine.nextRequestId ≤ 2 ^ 32) :
    ({} : Reservations).AllowsAll s.foreignCalls ∧
      ∀ id, (s.foreignCalls.foldl Reservations.after {}).reserved id ≠ none →
        ∃ n ∈ s.engine.scheduler.ids, Int32.ofNat n = id := by
  obtain ⟨c, hx⟩ := TinyLlmExecutor.accounts_new hfits hnew
  have hi := h.inv_any.1
  have hn := h.noticed
  have hlt : ∀ n ∈ s.admitted.map (·.id), n < 2 ^ 32 := by
    refine List.forall_mem_map.2 fun r hr => ?_
    exact (hi.admits r hr).2.trans_le (hi.numbering ▸ hids)
  have hplaces := hi.places
  rw [← hn.notices] at hplaces
  obtain ⟨y, hrun, hy⟩ := hx.runCalls symbols s.calls
    (fun n hmem => hlt n (hplaces.subset (List.mem_append_right _ hmem))) hn.quiet
    (fun n hmem => hlt n (hn.sent n hmem)) (h.ships hfits)
  have hreplays : (runCalls (s.calls.map BackendCall.call) _).2 = _ := congrArg Prod.snd h.replays
  have heq : s.engine.executionPipeline.gpuExecutor = ⟨symbols.logged, y⟩ :=
    hreplays.symm.trans hrun
  have hcalls : s.foreignCalls = y.foreignCalls := by rw [foreignCalls, heq]
  rw [hcalls]
  refine ⟨hy.allowed, fun id hid => ?_⟩
  obtain ⟨n, hsent, hopen, rfl⟩ := hy.running id hid
  refine ⟨n, ?_, rfl⟩
  have hmem := hplaces.mem_iff.2 (hn.sent n hsent)
  exact (List.mem_append.1 hmem).resolve_right hopen

/-- A library that answers each sequence with the token 40. -/
def answeringSymbols : TinyLlmSymbols Unit where
  load _ _ := .ok ()
  allocateSequence _ _ _ := (0, ())
  freeSequence _ _ := (0, ())
  step _ args := (0, args.seqIds.map fun _ => 40, ())

def tinyExecutor : TinyLlmExecutor (Unit × List ForeignCall) :=
  ⟨((), [.load ⟨16, 4, 2⟩]), ∅, true, 4, 512⟩

/-- One request on tiny-llm, to its report. -/
def tinySession :
    Session (TinyLlmBackend (Unit × List ForeignCall)) SimpleTokenizer SimpleDecoder :=
  (new smallConfig SimpleTokenizer.new ⟨answeringSymbols.logged, tinyExecutor⟩).run
    [.submitRequest "a" { maxTokens := 2 }, .stepEvents, .stepEvents]

/-- Loaded, reserved, two steps and freed. -/
theorem allowed_of_reachable_tiny :
    tinySession.foreignCalls.length = 5 ∧ ({} : Reservations).AllowsAll tinySession.foreignCalls ∧
      ∀ id, (tinySession.foreignCalls.foldl Reservations.after {}).reserved id = none := by
  have hnew : TinyLlmExecutor.new answeringSymbols.logged (fun _ => none) "model" smallConfig =
      .ok tinyExecutor := rfl
  have hfits : smallConfig.FitsCInt := ⟨by decide, by decide, by decide⟩
  have hreachable : tinySession.Reachable smallConfig SimpleTokenizer.new
      ⟨answeringSymbols.logged, tinyExecutor⟩ :=
    ⟨by decide +kernel, _, rfl⟩
  have hdrained : tinySession.engine.scheduler.ids = [] := by decide +kernel
  obtain ⟨hallowed, hheld⟩ := allowed_of_reachable hnew hfits hreachable (by decide +kernel)
  refine ⟨by decide +kernel, hallowed, fun id => ?_⟩
  by_contra hreserved
  obtain ⟨n, hn, -⟩ := hheld id hreserved
  rw [hdrained] at hn
  exact absurd hn List.not_mem_nil

end Session

end PagedServing
