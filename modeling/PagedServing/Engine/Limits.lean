import PagedServing.Engine.Acceptance
import PagedServing.Engine.Answers
import PagedServing.Executor.Cpu
import PagedServing.Scheduler.Prompts

/-! # The limits of a batch

The loops of a pass share saturating counters, the pipeline adds up the lengths again in
`u32`, and the executor compares sizes once more. Below the largest token budget they all
count the same thing.
-/

namespace PagedServing

open Scheduler FixedWidth

/-- The batch `o` of a pass that ended in `s`, within the limits of the configuration. -/
structure Scheduler.Limited (s : Scheduler) (config : EngineConfig) (o : SchedulerOutput) :
    Prop where
  batchSize : o.seqIds.length ≤ config.maxBatchSize.toNat
  once : o.seqIds.Nodup
  active : ∀ seq ∈ o.prefillSequences ++ o.decodeSequences, s.active seq.seqId = some seq
  total : o.totalTokens = o.decodeSequences.length +
    (o.prefillSequences.map fun seq => seq.request.inputTokens.length).sum
  budget : o.totalTokens ≤ config.maxTotalTokens.toNat

/-- The token sum of the shape check does not wrap and agrees with the tokens, and neither
size check of an executor with this configuration refuses the batch. -/
structure ExecutionBatch.Limited (b : ExecutionBatch) (config : EngineConfig) : Prop where
  sum : b.seqLens.sum < 2 ^ 32
  tokens : asU32 b.seqLens.sum = b.inputTokens.length
  batchSize : ¬ config.maxBatchSize.toNat < b.seqIds.length
  totalTokens : ¬ config.maxTotalTokens.toNat < b.inputTokens.length

namespace Scheduler

variable {s : Scheduler}

/-- The prompts of a pass were in the scheduler before. -/
theorem prompts_of_schedule (hw : s.Wf) {seq : Sequence}
    (hseq : seq ∈ s.schedule.1.prefillSequences ++ s.schedule.1.decodeSequences) :
    s.Prompts seq.request.inputTokens :=
  (schedule_keepsPrompts hw).active ((schedule_current hw).active seq hseq)

theorem schedule_limited (hw : s.Wf) (hmax : s.config.maxTotalTokens.toNat < u32Max)
    (hprompts : ∀ tokens, s.Prompts tokens → tokens.length < 2 ^ 32) :
    s.schedule.2.Limited s.config s.schedule.1 := by
  have hc := schedule_current hw
  have hbudget := schedule_withinBudget hw
  have htally := (pass_tallied hw).totalTokens
  have hfeeds : s.schedule.1.feeds ≤ s.config.maxTotalTokens.toNat := by
    have htokens := hbudget.tokens
    omega
  have htotal : s.schedule.1.totalTokens = s.schedule.1.feeds :=
    htally.trans (Nat.min_eq_left (hfeeds.trans hmax.le))
  have hlens : (s.schedule.1.prefillSequences.map fun seq =>
      asU32 seq.request.inputTokens.length) =
        s.schedule.1.prefillSequences.map fun seq => seq.request.inputTokens.length :=
    List.map_congr_left fun seq hseq =>
      asU32_of_lt (hprompts _ (prompts_of_schedule hw (List.mem_append_left _ hseq)))
  refine ⟨hbudget.batch, hc.nodup, hc.active, ?_, htotal.trans_le hfeeds⟩
  rw [htotal, SchedulerOutput.feeds, hlens, Nat.add_comm]

theorem buildExecutionBatch_limited (hw : s.Wf)
    (hmax : s.config.maxTotalTokens.toNat < u32Max)
    (hprompts : ∀ tokens, s.Prompts tokens → tokens.length < 2 ^ 32) {b : ExecutionBatch}
    (hbuild : buildExecutionBatch s.schedule.1 = .ok b) : b.Limited s.config := by
  have hlen : ∀ seq ∈ s.schedule.1.prefillSequences, seq.request.inputTokens.length < 2 ^ 32 :=
    fun seq hseq => hprompts _ (prompts_of_schedule hw (List.mem_append_left _ hseq))
  obtain ⟨htokens, hsum⟩ := (buildExecutionBatch_builds hlen hbuild).tokens_length hlen
  have hbudget := schedule_withinBudget hw
  have hfeeds : s.schedule.1.feeds ≤ s.config.maxTotalTokens.toNat := by
    have htokens := hbudget.tokens
    omega
  have hlt : s.schedule.1.feeds < 2 ^ 32 :=
    (hfeeds.trans_lt hmax).trans (by decide)
  rw [← hsum] at hlt
  refine ⟨hlt, by rw [asU32_of_lt hlt, hsum, htokens], ?_, ?_⟩
  · rw [buildExecutionBatch_seqIds hbuild]
    exact Nat.not_lt.2 hbudget.batch
  · rw [htokens]
    exact Nat.not_lt.2 hfeeds

end Scheduler

namespace History

/-- Every batch of every run is within the limits, and so is what is built from it. -/
theorem limited_of_run (config : EngineConfig) (ops : List SchedulerOp)
    (hmax : config.maxTotalTokens.toNat < 2 ^ 32 - 1)
    (hprompts : ∀ op ∈ ops, ∀ tokens, op.prompt = some tokens → tokens.length < 2 ^ 32) :
    ((new config).run ops).scheduler.schedule.2.Limited config
        ((new config).run ops).scheduler.schedule.1 ∧
      ∀ b, buildExecutionBatch ((new config).run ops).scheduler.schedule.1 = .ok b →
        b.Limited config := by
  have hi := (inv_new config).run ops
  have hconfig : ((new config).run ops).scheduler.config = config :=
    config_run (inv_new config) ops
  have hshort : ∀ tokens, ((new config).run ops).scheduler.Prompts tokens →
      tokens.length < 2 ^ 32 := by
    intro tokens ht
    rcases prompts_run (inv_new config) ops ht with hnew | ⟨op, hop, heq⟩
    · rcases hnew with ⟨p, hp, -⟩ | ⟨id, seq, hseq, -⟩
      · cases hp
      · simp [new, Scheduler.new, Scheduler.active] at hseq
    · exact hprompts op hop tokens heq
  generalize (new config).run ops = h at *
  subst hconfig
  exact ⟨schedule_limited hi.wf hmax hshort,
    fun b hbuild => buildExecutionBatch_limited hi.wf hmax hshort hbuild⟩

theorem limited_of_run_mixed : ((new {}).run mixedOps).scheduler.schedule.2.Limited {}
    ((new {}).run mixedOps).scheduler.schedule.1 ∧ mixedBatch.Limited {} := by
  have hlimited := limited_of_run {} mixedOps (by decide) (by simp [mixedOps, SchedulerOp.prompt])
  exact ⟨hlimited.1, hlimited.2 mixedBatch (by decide +kernel)⟩

end History

end PagedServing
