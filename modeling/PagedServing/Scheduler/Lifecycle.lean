import PagedServing.Scheduler.History

/-! # Lifecycle and block ownership over whole histories

Both results hold after any list of public operations on a fresh scheduler, with
arbitrary execution outputs, cancellations and failures among them.
-/

namespace PagedServing

open FixedWidth

namespace History

variable {h : History}

/-- Every issued id is in exactly one place, once, under a tag that fits the place. -/
structure Lifecycle (h : History) : Prop where
  places : (h.scheduler.pendingQueue.map (·.seqId) ++ h.scheduler.prefillSequences.keys
    ++ h.scheduler.decodeSequences.keys ++ h.scheduler.completedRequests.map (·.1)
    ++ h.drained.map (·.1)).Perm h.issued
  once : h.issued.Nodup
  pending : ∀ p ∈ h.scheduler.pendingQueue, p.request.state = .pending
  prefill : ∀ (id : SeqId) (seq : Sequence), h.scheduler.prefillSequences[id]? = some seq →
    seq.seqId = id ∧ seq.request.state = .prefill
  decode : ∀ (id : SeqId) (seq : Sequence), h.scheduler.decodeSequences[id]? = some seq →
    seq.seqId = id ∧ seq.request.state = .decode
  ended : ∀ r ∈ h.ended, r.2.state.IsTerminal
  bounded : h.scheduler.pendingQueue.length + h.scheduler.numActiveSequences
    ≤ h.scheduler.config.maxNumSeqs.toNat

theorem Inv.lifecycle (hi : h.Inv) : h.Lifecycle where
  places := hi.places
  once := hi.issued ▸ List.nodup_range'
  pending := hi.wf.pending_tag
  prefill _ _ := hi.wf.prefill_tag
  decode _ _ := hi.wf.decode_tag
  ended r hr := (List.mem_append.1 hr).elim (hi.drained_tag r) (hi.wf.completed_tag r)
  bounded := hi.unfinished

theorem run_append (h : History) (ops more : List SchedulerOp) :
    h.run (ops ++ more) = (h.run ops).run more :=
  List.foldl_append

/-- The lifecycle holds after every run, and what has ended by then is unchanged after
every longer run. -/
theorem lifecycle_of_run (config : EngineConfig) (ops more : List SchedulerOp) :
    ((new config).run ops).Lifecycle ∧
      ((new config).run ops).ended <+: ((new config).run (ops ++ more)).ended := by
  have hi := (inv_new config).run ops
  refine ⟨hi.lifecycle, ?_⟩
  rw [run_append]
  exact ended_prefix_run hi more

/-! ## Blocks -/

/-- Free list and page tables partition the pool, and the tables are those of the
active sequences. -/
structure OwnsBlocks (h : History) : Prop where
  free_nodup : h.scheduler.kvCache.blockPool.freeList.Nodup
  partition : (h.scheduler.kvCache.blockPool.freeList
    ++ (IdMap.vals h.scheduler.kvCache.pageTables).flatMap PageTable.getBlockTable).Perm
      (List.range h.scheduler.config.maxNumBlocks.toNat)
  refCounts : ∀ i < h.scheduler.config.maxNumBlocks.toNat,
    h.scheduler.kvCache.blockPool.blocks[i]? =
      some ⟨i, if i ∈ h.scheduler.kvCache.blockPool.freeList then 0 else 1⟩
  tables : ∀ id : SeqId, h.scheduler.kvCache.pageTables[id]?.map (·.logicalBlocks) =
    (h.scheduler.prefillSequences[id]?.or h.scheduler.decodeSequences[id]?).map (·.logicalBlocks)
  pending : ∀ p ∈ h.scheduler.pendingQueue, h.scheduler.kvCache.pageTables[p.seqId]? = none
  ended : ∀ r ∈ h.ended, h.scheduler.kvCache.pageTables[r.1]? = none
  used : h.scheduler.kvCache.getMemoryStats.usedBlocks =
    ((IdMap.vals h.scheduler.kvCache.pageTables).map (·.getBlockTable.length)).sum
  idle : h.scheduler.numActiveSequences = 0 →
    h.scheduler.kvCache.getMemoryStats.usedBlocks = 0

/-- What has ended is no longer active. -/
theorem Inv.active_none_of_ended (hi : h.Inv) {r : SeqId × Request} (hr : r ∈ h.ended) :
    h.scheduler.active r.1 = none := by
  have hnodup := hi.places.nodup_iff.2 hi.lifecycle.once
  have hdone : r.1 ∈ h.scheduler.completedRequests.map (·.1) ++ h.drained.map (·.1) := by
    rw [← List.map_append]
    exact List.mem_map_of_mem ((List.perm_append_comm).mem_iff.1 hr)
  rw [Scheduler.ids, List.append_assoc] at hnodup
  cases ha : h.scheduler.active r.1 with
  | none => rfl
  | some seq =>
      exact absurd rfl ((List.nodup_append.1 hnodup).2.2 r.1
        (Scheduler.Wf.mem_ids_of_active ha) r.1 hdone)

theorem Inv.ownsBlocks (hi : h.Inv) : h.OwnsBlocks where
  free_nodup := hi.wf.kvCache.ledger.free_nodup
  partition := hi.wf.poolSize ▸ hi.wf.kvCache.ledger.perm
  refCounts i hlt := by
    rw [← hi.wf.poolSize] at hlt
    rw [List.getElem?_eq_getElem hlt,
      hi.wf.kvCache.counted.block_eq (List.getElem?_eq_getElem hlt)]
  tables := hi.wf.tables
  pending _ hp := hi.wf.pageTable_none (hi.wf.active_none_of_pending hp)
  ended _ hr := hi.wf.pageTable_none (hi.active_none_of_ended hr)
  used := hi.wf.kvCache.usedBlocks_eq
  idle := hi.wf.usedBlocks_of_idle

theorem ownsBlocks_of_run (config : EngineConfig) (ops : List SchedulerOp) :
    ((new config).run ops).OwnsBlocks :=
  ((inv_new config).run ops).ownsBlocks

end History

end PagedServing
