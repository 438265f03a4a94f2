import PagedServing.Scheduler.Scan

/-! # Prompts that can never start

A prompt that fills the pool and needs a block for the step after it is refused by every
state over its configuration, whatever is free there.
-/

namespace PagedServing

open FixedWidth Relation

namespace Scheduler

variable {s s' : Scheduler} {p : PendingRequest}

/-- No state over this configuration has the budget for the prompt of this request. -/
def Refuses (config : EngineConfig) (r : Request) : Prop :=
  ∀ s : Scheduler, s.Wf → s.config = config →
    s.hasPrefillBudget (r.promptBlocks config) (asU32 r.inputTokens.length) = false

theorem Stuck.refuses {r : Request} (h : s.Stuck r) : Refuses s.config r := by
  intro s' hw' hconfig
  obtain ⟨-, hpool, hneeds⟩ := h
  rw [← prefillNeedsDecodeReserve_congr hconfig] at hneeds
  have hfree : s'.kvCache.getMemoryStats.freeBlocks ≤ s.config.maxNumBlocks.toNat := by
    rw [hw'.freeBlocks_eq, ← hconfig]
    exact hw'.length_freeList_le
  have hreserve : 1 ≤ saturatingAdd s'.nextStepGrowthReserve 1 := by
    simp only [saturatingAdd, u32Max]
    omega
  rw [hasPrefillBudget, hpool, hneeds, Nat.sub_eq_zero_of_le hfree, Bool.and_eq_false_iff]
  exact .inr (decide_eq_false (Nat.not_le_of_lt hreserve))

theorem Refuses.not_started (h : Refuses s.config p.request) (hw : s.Wf)
    (hp : p ∈ s.pendingQueue) : p.seqId ∉ s.schedule.1.prefillSequences.map (·.seqId) := by
  intro hstarts
  rw [schedule_eq] at hstarts
  obtain ⟨hgone, hkept, hopen, hqueued⟩ := started_of_pass hw hp hstarts
  obtain ⟨l, rest, hsorted⟩ :=
    List.append_of_mem ((sortPending_perm s.prefillPass.scheduler.pendingQueue).mem_iff.2 hqueued)
  have hlength : (sortPending s.prefillPass.scheduler.pendingQueue).length =
      l.length + (rest.length + 1) := by
    rw [hsorted, List.length_append, List.length_cons]
  obtain ⟨-, hdecided⟩ := scanned_decided hw hsorted
  rw [← hlength, ← pass_of_open hopen] at hdecided
  cases hdecided with
  | deferred _ hleft => exact hgone hleft
  | rejected reason hended _ => exact hkept (List.mem_map_of_mem (f := Prod.fst) hended)
  | started hstart _ _ =>
      have hconfig : (s.scanned l.length).scheduler.config = s.config :=
        (Moves.evolves (wf_passStart hw) (turns_moves (scanned_turns hw _))).config
      have hno := h _ (scanned_wf hw l.length) hconfig
      rw [← hconfig] at hno
      rw [hstart.2] at hno
      cases hno

/-- The state in which the stall guard may fail all that is pending. -/
structure Stalled (s : Scheduler) : Prop where
  idle : s.numActiveSequences = 0
  unused : s.kvCache.getMemoryStats.usedBlocks = 0
  refused : ∀ p ∈ s.pendingQueue, s.hasPrefillBudget (p.request.promptBlocks s.config)
    (asU32 p.request.inputTokens.length) = false
  never : ∀ p ∈ s.pendingQueue, ∀ later : Scheduler, later.Wf → later.config = s.config →
    later.hasPrefillBudget (p.request.promptBlocks later.config)
        (asU32 p.request.inputTokens.length) = false ∧
      (p ∈ later.pendingQueue →
        p.seqId ∉ later.schedule.1.prefillSequences.map (·.seqId))

theorem Wf.stalled (hw : s.Wf) (hidle : s.numActiveSequences = 0)
    (hstuck : ∀ p ∈ s.pendingQueue, s.Stuck p.request) : s.Stalled := by
  refine ⟨hidle, hw.usedBlocks_of_idle hidle, fun p hp => (hstuck p hp).refuses s hw rfl,
    fun p hp later hlater hconfig => ?_⟩
  have hrefuses : Refuses later.config p.request := hconfig ▸ (hstuck p hp).refuses
  exact ⟨hrefuses later hlater rfl, hrefuses.not_started hlater⟩

end Scheduler

end PagedServing
