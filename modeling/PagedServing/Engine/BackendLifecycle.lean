import PagedServing.Engine.CpuCalls
import PagedServing.Executor.Coverage

/-! # Sequences in the backend

A sequence that leaves the engine is reported to the backend once, and no batch has
it afterwards. The CPU executor therefore ends up with nothing stored.
-/

namespace PagedServing

open Scheduler

namespace Session

variable {σ τ δ : Type} [GPUExecutorTrait σ] [IncrementalDecoder δ] [TokenizerTrait τ δ]
  {s : Session σ τ δ}

/-- Who is reported to the backend, and when. -/
structure Lifecycle (s : Session σ τ δ) : Prop where
  once : (finishedIds s.calls).Nodup
  /-- Whoever has left the engine was reported, and nobody else. -/
  drained : (s.engine.scheduler.ids ++ finishedIds s.calls).Perm (s.admitted.map (·.id))
  /-- What a step reports has ended and is neither pending nor active. -/
  ended : ∀ id ∈ finishedIds s.step.calls, id ∉ finishedIds s.calls →
    s.advance.engine.scheduler.active id = none ∧
      (∀ p ∈ s.advance.engine.scheduler.pendingQueue, p.seqId ≠ id) ∧
        ∃ req, (id, req) ∈ s.advance.engine.scheduler.completedRequests ∧ req.state.IsTerminal
  quiet : QuietAfter [] s.calls

theorem Reachable.lifecycle {config : EngineConfig} {tokenizer : τ} {gpuExecutor : σ}
    (h : s.Reachable config tokenizer gpuExecutor) : s.Lifecycle := by
  obtain ⟨hi, hsettled⟩ := h.inv_any
  have hn := h.noticed
  have hplaces : (s.engine.scheduler.ids ++ finishedIds s.calls).Perm (s.admitted.map (·.id)) := by
    rw [hn.notices]
    exact hi.places
  have hnodup := hplaces.nodup_iff.2 hi.once
  refine ⟨(List.nodup_append.1 hnodup).2.1, hplaces, fun id hid hnew => ?_, hn.quiet⟩
  have hmid := hi.stage (advance_stage (.any σ) hi hsettled)
  have hadvance := hn.advance hi
  rw [step_eq hi.sound, calls_collect hmid.sound, finishedIds_append, hadvance.notices] at hid
  have hreports : s.advance.reports = s.reports := rfl
  rw [hreports, ← hn.notices] at hid
  have hcompleted : id ∈ s.advance.engine.scheduler.completedRequests.map (·.1) := by
    have hlast := (List.mem_append.1 hid).resolve_left hnew
    split at hlast
    · cases hlast
    · simpa [finishedIds, BackendCall.finished] using hlast
  obtain ⟨⟨id, req⟩, hreq, rfl⟩ := List.mem_map.1 hcompleted
  have hwf := hmid.sound.wf
  exact ⟨hwf.active_none_of_completed hreq, not_pending_of_completed hwf hreq, req, hreq,
    hwf.completed_tag _ hreq⟩

end Session

/-! ## The CPU executor -/

namespace CpuReferenceExecutor

variable {V : Type}

/-- Only sequences not reported are recorded, and only their blocks are stored. -/
structure Kept (x : CpuReferenceExecutor V) (reported : List SeqId) : Prop where
  unreported : ∀ (id : SeqId) blockTable, x.seqBlockTables[id]? = some blockTable → id ∉ reported
  covered : ∀ key block, x.kvCache key = some block → ∃ (id : SeqId) (blockTable : List BlockIdx),
    x.seqBlockTables[id]? = some blockTable ∧ key.2 ∈ blockTable

structure Empty (x : CpuReferenceExecutor V) : Prop where
  seqBlockTables : x.seqBlockTables = ∅
  kvCache : ∀ key, x.kvCache key = none

end CpuReferenceExecutor

theorem finished_foldl_observe (c : Caller) (calls : List BackendCall) :
    (calls.foldl Caller.observe c).finished = c.finished ++ finishedIds calls := by
  induction calls generalizing c with
  | nil => exact (List.append_nil _).symm
  | cons call rest ih =>
      rw [List.foldl_cons, ih]
      cases call with
      | execute batch reply => exact congrArg (· ++ _) (c.after_finished _ reply)
      | sequencesFinished ids => exact List.append_assoc ..

namespace Session

section Cpu

open CpuReferenceExecutor

variable {V τ δ : Type} [IncrementalDecoder δ] [TokenizerTrait τ δ] {config : EngineConfig}
  {tokenizer : τ} {vocabSize : Nat} {model : CpuModel V}
  {s : Session (CpuReferenceExecutor V) τ δ}

/-- What the CPU executor has stored after each of the engine's calls, and at the end. -/
structure CacheKept (x : CpuReferenceExecutor V) (s : Session (CpuReferenceExecutor V) τ δ) :
    Prop where
  kept : ∀ calls, calls <+: s.calls →
    (runCalls (calls.map BackendCall.call) x).2.Kept (finishedIds calls)
  replayed : (runCalls (s.calls.map BackendCall.call) x).2 = s.engine.executionPipeline.gpuExecutor
  drained : s.engine.scheduler.ids = [] → s.engine.executionPipeline.gpuExecutor.Empty

theorem Reachable.covered
    (h : s.Reachable config tokenizer (CpuReferenceExecutor.new config vocabSize model))
    {calls : List BackendCall} (hcalls : calls <+: s.calls) :
    (runCalls (calls.map BackendCall.call)
      (CpuReferenceExecutor.new config vocabSize model)).2.Covered
        (calls.foldl Caller.observe {}) := by
  have hlog := BatchExecutionPipeline.Replays.of_prefix h.replays hcalls
  have hconforms := (h.tracked fun _ => rfl).conforms
  obtain ⟨later, hlater⟩ := hcalls
  rw [← hlater, Caller.ConformsTo.append] at hconforms
  have hcovered := (Covered.new config vocabSize model).runCalls (calls.map BackendCall.call)
    (by rw [hlog]; exact hconforms.1)
  rwa [hlog] at hcovered

theorem Reachable.cacheKept
    (h : s.Reachable config tokenizer (CpuReferenceExecutor.new config vocabSize model)) :
    s.CacheKept (CpuReferenceExecutor.new config vocabSize model) := by
  have hreplayed : (runCalls (s.calls.map BackendCall.call)
      (CpuReferenceExecutor.new config vocabSize model)).2 =
        s.engine.executionPipeline.gpuExecutor := (Prod.mk.inj h.replays).2
  have hkept : ∀ calls, calls <+: s.calls → (runCalls (calls.map BackendCall.call)
      (CpuReferenceExecutor.new config vocabSize model)).2.Kept (finishedIds calls) := by
    intro calls hcalls
    have hcovered := h.covered hcalls
    refine ⟨fun id blockTable hrec => ?_, fun key block hblock => (hcovered.keys key block hblock).2⟩
    have hfin := (hcovered.recorded id blockTable hrec).1
    rwa [finished_foldl_observe, List.nil_append] at hfin
  refine ⟨hkept, hreplayed, fun hdrained => ?_⟩
  have hcovered := h.covered List.prefix_rfl
  rw [hreplayed] at hcovered
  -- a recorded table was in a batch, so its sequence was admitted, and so reported
  have hnone : ∀ id : SeqId,
      s.engine.executionPipeline.gpuExecutor.seqBlockTables[id]? = none := by
    intro id
    cases hrec : s.engine.executionPipeline.gpuExecutor.seqBlockTables[id]? with
    | none => rfl
    | some blockTable =>
        obtain ⟨hfin, hne, hinitial⟩ := hcovered.recorded id blockTable hrec
        have hadmitted : id ∈ s.admitted.map (·.id) := by
          by_contra hno
          have htable : s.caller.table id = _ := (h.tracked fun _ => rfl).table id
          rw [(h.inv_any.1.strangers id hno).2.1] at htable
          rw [caller] at htable
          rw [htable] at hinitial
          exact hne (List.prefix_nil.1 hinitial)
        have hreported := h.lifecycle.drained.mem_iff.2 hadmitted
        rw [hdrained, List.nil_append] at hreported
        rw [finished_foldl_observe, List.nil_append] at hfin
        exact absurd hreported hfin
  refine ⟨IdMap.eq_empty_iff.2 hnone, fun key => ?_⟩
  cases hblock : s.engine.executionPipeline.gpuExecutor.kvCache key with
  | none => rfl
  | some block =>
      obtain ⟨-, id, blockTable, hrec, -⟩ := hcovered.keys key block hblock
      rw [hnone] at hrec
      cases hrec

end Cpu

variable {τ δ : Type} [IncrementalDecoder δ] [TokenizerTrait τ δ]

/-- Over any backend every sequence that is drained is reported once; over the CPU
executor nothing outlives its report. -/
theorem lifecycle_of_reachable (config : EngineConfig) (tokenizer : τ) :
    (∀ {σ : Type} [GPUExecutorTrait σ] (gpuExecutor : σ) (s : Session σ τ δ),
        s.Reachable config tokenizer gpuExecutor → s.Lifecycle) ∧
      ∀ {V : Type} (vocabSize : Nat) (model : CpuModel V)
        (s : Session (CpuReferenceExecutor V) τ δ),
        s.Reachable config tokenizer (CpuReferenceExecutor.new config vocabSize model) →
          s.CacheKept (CpuReferenceExecutor.new config vocabSize model) :=
  ⟨fun _ _ h => h.lifecycle, fun _ _ _ h => h.cacheKept⟩

/-- One request, run to its report on the CPU executor. -/
def cpuSession : Session (CpuReferenceExecutor Nat) SimpleTokenizer SimpleDecoder :=
  (new smallConfig SimpleTokenizer.new
    (.new smallConfig 100 CpuReferenceExecutor.countingModel)).run smallOps

theorem cpuSession_reachable : cpuSession.Reachable smallConfig SimpleTokenizer.new
    (.new smallConfig 100 CpuReferenceExecutor.countingModel) :=
  ⟨by decide +kernel, smallOps, rfl⟩

theorem lifecycle_of_reachable_small :
    smallSession.Lifecycle ∧
      cpuSession.CacheKept (.new smallConfig 100 CpuReferenceExecutor.countingModel) := by
  obtain ⟨hany, hcpu⟩ :=
    lifecycle_of_reachable (τ := SimpleTokenizer) (δ := SimpleDecoder) smallConfig .new
  exact ⟨hany _ smallSession smallSession_reachable, hcpu 100 _ cpuSession cpuSession_reachable⟩

end Session

end PagedServing
