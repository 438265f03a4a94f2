import PagedServing.Engine.Serving

/-! # Answers to a batch

An answer is accepted when it has one token for each sequence of the batch, in any
order, and the order is lost in the update that follows.
-/

namespace PagedServing

open Scheduler Relation

/-! ## The check -/

theorem buildExecutionBatch_seqIds {o : SchedulerOutput} {b : ExecutionBatch}
    (h : buildExecutionBatch o = .ok b) : b.seqIds = o.seqIds := by
  have hprefill (seqs : List Sequence) (b : ExecutionBatch) :
      (seqs.foldl ExecutionBatch.addPrefill b).seqIds = b.seqIds ++ seqs.map (·.seqId) := by
    induction seqs generalizing b with
    | nil => simp
    | cons seq rest ih => simp [ih, ExecutionBatch.addPrefill]
  have hdecode (seqs : List Sequence) (b b' : ExecutionBatch)
      (h : seqs.foldlM ExecutionBatch.addDecode b = .ok b') :
      b'.seqIds = b.seqIds ++ seqs.map (·.seqId) := by
    induction seqs generalizing b with
    | nil =>
      obtain rfl := Except.ok.inj h
      simp
    | cons seq rest ih =>
      rw [List.foldlM_cons] at h
      cases hone : b.addDecode seq with
      | error e => simp [hone, bind, Except.bind] at h
      | ok b₁ =>
          simp only [hone, bind, Except.bind] at h
          have hseq : b₁.seqIds = b.seqIds ++ [seq.seqId] := by
            rw [ExecutionBatch.addDecode] at hone
            split at hone
            · cases hone
            · split at hone
              · cases hone
              · obtain rfl := Except.ok.inj hone
                rfl
          rw [ih b₁ h, hseq, List.append_assoc]
          rfl
  rw [hdecode _ _ _ h, hprefill, SchedulerOutput.seqIds, List.map_append]
  rfl

/-- Exactly the answers with one token for each sequence are accepted. -/
theorem validateExecutionOutput_eq_ok {b : ExecutionBatch} {output : ExecutionOutput}
    (hb : b.seqIds.Nodup) :
    validateExecutionOutput b output = .ok () ↔
      output.seqIds.Perm b.seqIds ∧ output.nextTokens.length = output.seqIds.length ∧
        (output.logprobs = [] ∨ output.logprobs.length = output.seqIds.length) := by
  constructor
  · intro h
    have ha := answered_of_valid hb h
    refine ⟨ha.perm, ha.tokens, ?_⟩
    simp only [validateExecutionOutput, malformedOutput] at h
    split_ifs at h with h1 h2 h3 h4 h5
    by_cases hnil : output.logprobs = []
    · exact .inl hnil
    · exact .inr (not_not.1 fun hne => h5 ⟨by simpa using hnil, hne⟩)
  · rintro ⟨hperm, htokens, hlogprobs⟩
    have hnodup : output.seqIds.dedup.length = output.seqIds.length := by
      rw [List.dedup_eq_self.2 (hperm.nodup_iff.2 hb)]
    have hset : output.seqIds.toFinset = b.seqIds.toFinset := by
      ext a
      simp [hperm.mem_iff]
    have hlog : ¬ ((!output.logprobs.isEmpty) = true ∧
        output.logprobs.length ≠ output.seqIds.length) := by
      rintro ⟨hnil, hne⟩
      rcases hlogprobs with hempty | hlen
      · simp [hempty] at hnil
      · exact hne hlen
    rw [validateExecutionOutput, if_neg (not_not.2 htokens), if_neg (not_not.2 hperm.length_eq),
      if_neg (not_not.2 hnodup), if_neg (not_not.2 hset), if_neg hlog]

/-! ## What an answer assigns -/

/-- The token and the logprobs that an answer has for a sequence. -/
def ExecutionOutput.assigned (o : ExecutionOutput) (id : SeqId) :
    Option (TokenId × Option TokenLogprobs) :=
  (o.rows.lookup id).map fun row => (row.token, row.logprobs.join)

/-- A row without logprobs is like a row with the entry `none`. -/
theorem Sequence.next_join (seq : Sequence) (row : OutputRow) :
    seq.next row = seq.next ⟨row.token, some row.logprobs.join⟩ := by
  obtain ⟨token, logprobs⟩ := row
  simp only [Sequence.next, Sequence.appendToken]
  cases seq.request.params.logprobs with
  | none => rfl
  | some k => rcases logprobs with _ | _ | entry <;> rfl

theorem Sequence.next_congr {row row' : OutputRow} (seq : Sequence)
    (h : (row.token, row.logprobs.join) = (row'.token, row'.logprobs.join)) :
    seq.next row = seq.next row' := by
  obtain ⟨htoken, hjoin⟩ := Prod.mk.inj h
  rw [seq.next_join row, seq.next_join row', htoken, hjoin]

@[simp] theorem Sequence.next_outputTokens (seq : Sequence) (row : OutputRow) :
    (seq.next row).request.outputTokens = seq.request.outputTokens ++ [row.token] := rfl

namespace Scheduler

variable {s s' s'' : Scheduler} {o : SchedulerOutput} {output output' : ExecutionOutput}
  {eosTokenId : TokenId}

/-! ## What an update leaves alone -/

/-- Blocks are only given back, and the pressure flag is not touched. -/
structure Frees (s s' : Scheduler) : Prop where
  pressure : s'.underMemoryPressure = s.underMemoryPressure
  tables : ∀ (id : Nat) (table : PageTable), s'.kvCache.pageTables[id]? = some table →
    s.kvCache.pageTables[id]? = some table

theorem Frees.refl (s : Scheduler) : s.Frees s := ⟨rfl, fun _ _ h => h⟩

theorem Frees.trans (h : s.Frees s') (h' : s'.Frees s'') : s.Frees s'' :=
  ⟨h'.pressure.trans h.pressure, fun id table ht => h.tables id table (h'.tables id table ht)⟩

theorem foldl_frees {β : Type} {f : Scheduler → β → Scheduler}
    (hf : ∀ (s : Scheduler) (x : β), s.Frees (f s x))
    (s : Scheduler) (xs : List β) : s.Frees (xs.foldl f s) := by
  induction xs generalizing s with
  | nil => exact .refl s
  | cons x rest ih => exact (hf s x).trans (ih (f s x))

theorem freeSequence_tables {m : KVCacheManager} {id a : Nat} {table : PageTable}
    (h : (m.freeSequence id).pageTables[a]? = some table) : m.pageTables[a]? = some table := by
  rw [KVCacheManager.freeSequence] at h
  split at h
  · exact h
  · rw [IdMap.get_erase] at h
    split at h
    · cases h
    · exact h

theorem retire_frees {id : SeqId} {state : RequestState} (h : s.retire id state = some s') :
    s.Frees s' := by
  rcases retire_cases h with ⟨seq, -, rfl⟩ | ⟨seq, -, -, rfl⟩
  · exact ⟨rfl, fun _ _ ht => freeSequence_tables ht⟩
  · exact ⟨rfl, fun _ _ ht => freeSequence_tables ht⟩

theorem completeSequence_frees (s : Scheduler) (id : SeqId) : s.Frees (s.completeSequence id) := by
  rw [completeSequence]
  cases hr : s.retire id .completed with
  | none => exact .refl s
  | some s' => exact retire_frees hr

theorem failSequence_frees (s : Scheduler) (id : SeqId) (reason : String) :
    s.Frees (s.failSequence id reason) := by
  rcases failSequence_cases s id reason with
    hr | ⟨-, p, queue, -, -, -, heq⟩ | ⟨-, -, heq⟩
  · exact retire_frees hr
  · rw [heq]
    exact ⟨rfl, fun _ _ h => h⟩
  · rw [heq]
    exact .refl s

theorem updateRow_frees (output : ExecutionOutput) (eosTokenId : TokenId) (st : UpdateState)
    (index : Nat) (id : SeqId) :
    st.scheduler.Frees (updateRow output eosTokenId st index id).scheduler := by
  have htransition : st.scheduler.Frees (st.scheduler.transitionPrefillToDecode id) := by
    rw [transitionPrefillToDecode]
    split
    · exact .refl _
    · exact ⟨rfl, fun _ _ h => h⟩
  rw [updateRow]
  split
  · exact .refl _
  · dsimp only
    split
    · split <;> exact htransition.trans ⟨rfl, fun _ _ h => h⟩
    · exact htransition

theorem updateRows_frees (output : ExecutionOutput) (eosTokenId : TokenId) (ids : List SeqId)
    (index : Nat) (st : UpdateState) :
    st.scheduler.Frees (updateRows output eosTokenId index ids st).scheduler := by
  induction ids generalizing index st with
  | nil => exact .refl _
  | cons id rest ih => exact (updateRow_frees output eosTokenId st index id).trans (ih _ _)

theorem updateSequences_frees (s : Scheduler) (output : ExecutionOutput) (eosTokenId : TokenId) :
    s.Frees (s.updateSequences output eosTokenId) :=
  ((updateRows_frees output eosTokenId output.seqIds 0 { scheduler := s }).trans
    (foldl_frees (fun s (failure : SeqId × String) => failSequence_frees s failure.1 failure.2) _ _)).trans
      (foldl_frees completeSequence_frees _ _)

/-! ## States that differ in an order only -/

/-- Equal, but for the order of the completed buffer and of the free list. -/
structure SameUpToOrder (s s' : Scheduler) : Prop where
  config : s.config = s'.config
  pendingQueue : s.pendingQueue = s'.pendingQueue
  prefillSequences : s.prefillSequences = s'.prefillSequences
  decodeSequences : s.decodeSequences = s'.decodeSequences
  completedRequests : s.completedRequests.Perm s'.completedRequests
  nextSeqId : s.nextSeqId = s'.nextSeqId
  underMemoryPressure : s.underMemoryPressure = s'.underMemoryPressure
  pageTables : s.kvCache.pageTables = s'.kvCache.pageTables
  blocks : s.kvCache.blockPool.blocks = s'.kvCache.blockPool.blocks
  blockSize : s.kvCache.blockPool.blockSize = s'.kvCache.blockPool.blockSize
  freeList : s.kvCache.blockPool.freeList.Perm s'.kvCache.blockPool.freeList

/-- After blocks were given back, the active sequences determine the page tables. -/
theorem Frees.pageTables_eq (h : s.Frees s') (h' : s.Frees s'') (hw : s'.Wf) (hw' : s''.Wf)
    (hactive : ∀ id, s'.active id = s''.active id) :
    s'.kvCache.pageTables = s''.kvCache.pageTables := by
  apply Std.ExtTreeMap.ext_getElem?
  intro id
  have hfound := hw.tables id
  rw [hactive id, ← hw'.tables id] at hfound
  cases htable : s'.kvCache.pageTables[id]? with
  | none =>
      rw [htable, Option.map_none, eq_comm, Option.map_eq_none_iff] at hfound
      exact hfound.symm
  | some table =>
      rw [htable, Option.map_some, eq_comm, Option.map_eq_some_iff] at hfound
      obtain ⟨table', htable', -⟩ := hfound
      rw [htable', ← h.tables id table htable, h'.tables id table' htable']

/-- The free list determines the counts of the blocks. -/
theorem counted_unique {p p' : BlockPool} (h : p.Counted) (h' : p'.Counted)
    (hlen : p.blocks.length = p'.blocks.length) (hfree : p.freeList.Perm p'.freeList) :
    p.blocks = p'.blocks := by
  refine List.ext_getElem? fun i => ?_
  by_cases hi : i < p.blocks.length
  · have hi' : i < p'.blocks.length := hlen ▸ hi
    have hblock := h.block_eq (List.getElem?_eq_getElem hi)
    have hblock' := h'.block_eq (List.getElem?_eq_getElem hi')
    rw [List.getElem?_eq_getElem hi, List.getElem?_eq_getElem hi', hblock, hblock']
    simp only [hfree.mem_iff]
  · rw [List.getElem?_eq_none (Nat.le_of_not_lt hi),
      List.getElem?_eq_none (hlen ▸ Nat.le_of_not_lt hi)]

/-- What an answer assigns determines the state after it, up to an order. -/
theorem Updated.sameUpToOrder (hw : s.Wf) (hu : s.Updated eosTokenId output.rows s')
    (hu' : s.Updated eosTokenId output'.rows s'') (hf : s.Frees s') (hf' : s.Frees s'')
    (hkeys : (output.rows.map Prod.fst).Nodup) (hkeys' : (output'.rows.map Prod.fst).Nodup)
    (hsame : ∀ id, output.assigned id = output'.assigned id) : s'.SameUpToOrder s'' := by
  have he := Moves.evolves hw hu.moves
  have he' := Moves.evolves hw hu'.moves
  have hprefill : s'.prefillSequences = s''.prefillSequences := by
    apply Std.ExtTreeMap.ext_getElem?
    intro id
    have hisSome := congrArg Option.isSome (hsame id)
    simp only [ExecutionOutput.assigned, Option.isSome_map] at hisSome
    rw [hu.prefill, hu'.prefill, hisSome]
  have hdecode : s'.decodeSequences = s''.decodeSequences := by
    apply Std.ExtTreeMap.ext_getElem?
    intro id
    have hassigned := hsame id
    simp only [ExecutionOutput.assigned] at hassigned
    rw [hu.decode, hu'.decode]
    cases hrow : output.rows.lookup id with
    | none =>
        rw [hrow, Option.map_none, eq_comm, Option.map_eq_none_iff] at hassigned
        rw [hassigned]
    | some row =>
        rw [hrow, Option.map_some, eq_comm, Option.map_eq_some_iff] at hassigned
        obtain ⟨row', hrow', heq⟩ := hassigned
        rw [hrow']
        simp only [Sequence.next_congr _ heq]
  have hcompleted : s'.completedRequests.Perm s''.completedRequests := by
    have hends (rows : List (SeqId × OutputRow)) :
        (rows.filterMap fun p => (s.active p.1).bind fun seq =>
          if s.finishes eosTokenId (seq.next p.2) then
            some (p.1, { (seq.next p.2).request with state := .completed })
          else none) =
        (rows.map fun p => (p.1, p.2.token, p.2.logprobs.join)).filterMap
          fun p => (s.active p.1).bind fun seq =>
            if s.finishes eosTokenId (seq.next ⟨p.2.1, some p.2.2⟩) then
              some (p.1, { (seq.next ⟨p.2.1, some p.2.2⟩).request with state := .completed })
            else none := by
      rw [List.filterMap_map]
      refine List.filterMap_congr fun p _ => ?_
      simp only [Function.comp_apply, ← Sequence.next_join]
    rw [hu.completed.trans (congrArg _ (hends output.rows)),
      hu'.completed.trans (congrArg _ (hends output'.rows))]
    exact ((IdMap.map_perm_of_lookup hkeys hkeys' (fun row => (row.token, row.logprobs.join))
      hsame).filterMap _).append_left _
  have hactive : ∀ id, s'.active id = s''.active id := fun id => by
    rw [active, active, hprefill, hdecode]
  have htables := hf.pageTables_eq hf' he.wf he'.wf hactive
  have hconfig : s'.config = s''.config := he.config.trans he'.config.symm
  have hlen : s'.kvCache.blockPool.blocks.length = s''.kvCache.blockPool.blocks.length := by
    rw [he.wf.poolSize, he'.wf.poolSize, hconfig]
  have hfree : s'.kvCache.blockPool.freeList.Perm s''.kvCache.blockPool.freeList := by
    have hledger := he'.wf.kvCache.ledger
    rw [← htables, ← hlen] at hledger
    exact he.wf.kvCache.ledger.free_perm hledger
  exact ⟨hconfig, hu.pending.trans hu'.pending.symm, hprefill, hdecode, hcompleted,
    he.nextSeqId.trans he'.nextSeqId.symm, hf.pressure.trans hf'.pressure.symm, htables,
    counted_unique he.wf.kvCache.counted he'.wf.kvCache.counted hlen hfree,
    by rw [he.wf.blockSize, he'.wf.blockSize, hconfig], hfree⟩

/-! ## The update after an accepted answer -/

end Scheduler

def Held.request : Held → Request
  | .pending r => r
  | .prefill seq => seq.request
  | .decode seq => seq.request
  | .completed r => r

namespace Scheduler

variable {s : Scheduler} {o : SchedulerOutput} {b : ExecutionBatch} {output : ExecutionOutput}
  {eosTokenId : TokenId}

/-- The update takes no malformed row, gives each scheduled sequence the token at its own
index, and leaves everybody else where they are. -/
structure Appends (s : Scheduler) (o : SchedulerOutput) (output : ExecutionOutput)
    (eosTokenId : TokenId) : Prop where
  wellFormed : (updateRows output eosTokenId 0 output.seqIds { scheduler := s }).toFail = []
  listed : ∀ seq ∈ o.prefillSequences ++ o.decodeSequences,
    ∃ (index : Nat) (token : TokenId) (held : Held), output.seqIds[index]? = some seq.seqId ∧
      output.nextTokens[index]? = some token ∧
      (s.updateSequences output eosTokenId).Holds seq.seqId held ∧
        held.request.outputTokens = seq.request.outputTokens ++ [token]
  others : ∀ id held, id ∉ o.seqIds →
    ((s.updateSequences output eosTokenId).Holds id held ↔ s.Holds id held)

/-- A schedule of distinct sequences that are active as it lists them. -/
structure Current (s : Scheduler) (o : SchedulerOutput) : Prop where
  nodup : o.seqIds.Nodup
  active : ∀ seq ∈ o.prefillSequences ++ o.decodeSequences, s.active seq.seqId = some seq

theorem schedule_current (hw : s.Wf) : s.schedule.2.Current s.schedule.1 := by
  have hpass := pass_spec hw
  rw [schedule_eq]
  refine ⟨hpass.nodup, fun seq hseq => ?_⟩
  rcases List.mem_append.1 hseq with hseq | hseq
  · exact Wf.active_of_prefill (hpass.outPrefill seq hseq)
  · exact (hpass.wf (wf_passStart hw)).active_of_decode (hpass.outDecode seq hseq)

theorem Current.exists_active (hc : s.Current o) (hb : b.seqIds = o.seqIds)
    (ha : Answered b output) : ∀ id ∈ output.seqIds, ∃ seq, s.active id = some seq := by
  intro id hid
  rw [ha.perm.mem_iff, hb] at hid
  obtain ⟨seq, hseq, rfl⟩ := List.mem_map.1 hid
  exact ⟨seq, hc.active seq hseq⟩

theorem Current.appends (hw : s.Wf) (hc : s.Current o) (hb : b.seqIds = o.seqIds)
    (ha : Answered b output) (eosTokenId : TokenId) : s.Appends o output eosTokenId := by
  have hactive := hc.exists_active hb ha
  have hu := updateSequences_updated eosTokenId hw ha.nodup ha.tokens hactive
  have hkeys := ExecutionOutput.keys_rows ha.tokens
  refine ⟨?_, fun seq hseq => ?_, fun id held hid => ?_⟩
  · have hlen : 0 + output.seqIds.length ≤ output.nextTokens.length := by
      rw [ha.tokens, Nat.zero_add]
    exact (updateRows_applied eosTokenId { scheduler := s } hw ha.nodup hlen hactive).1.toFail
  · have hid : seq.seqId ∈ output.seqIds := by
      rw [ha.perm.mem_iff, hb]
      exact List.mem_map_of_mem hseq
    obtain ⟨row, hrow, hpair⟩ := ExecutionOutput.exists_row ha.tokens ha.nodup hid
    obtain ⟨index, hindex⟩ := List.mem_iff_getElem?.1 hpair
    obtain ⟨hat, htoken⟩ := List.getElem?_zip_eq_some.1 hindex
    refine ⟨index, row.token, _, hat, htoken, hu.holds_of_mem hrow (hc.active seq hseq), ?_⟩
    split <;> rfl
  · refine hu.holds_of_not_mem ?_
    rwa [hkeys, ha.perm.mem_iff, hb]

end Scheduler

namespace History

variable {b : ExecutionBatch}

/-- The check accepts exactly the permutations of the batch, the update after it feeds each
scheduled sequence its own token, and the order of the answer does not matter. -/
theorem answers_of_run (config : EngineConfig) (ops : List SchedulerOp)
    (hbuild : buildExecutionBatch ((new config).run ops).scheduler.schedule.1 = .ok b) :
    (∀ output, validateExecutionOutput b output = .ok () ↔
        output.seqIds.Perm b.seqIds ∧ output.nextTokens.length = output.seqIds.length ∧
          (output.logprobs = [] ∨ output.logprobs.length = output.seqIds.length)) ∧
      (∀ output eosTokenId, validateExecutionOutput b output = .ok () →
        ((new config).run ops).scheduler.schedule.2.Appends
          ((new config).run ops).scheduler.schedule.1 output eosTokenId) ∧
      ∀ output output' eosTokenId, validateExecutionOutput b output = .ok () →
        validateExecutionOutput b output' = .ok () →
        (∀ id, output.assigned id = output'.assigned id) →
        (((new config).run ops).scheduler.schedule.2.updateSequences output
          eosTokenId).SameUpToOrder
            (((new config).run ops).scheduler.schedule.2.updateSequences output' eosTokenId) := by
  have hi := (inv_new config).run ops
  generalize (new config).run ops = h at *
  have hw := (Moves.evolves hi.wf (schedule_moves hi.wf)).wf
  have hc := schedule_current hi.wf
  have hids := buildExecutionBatch_seqIds hbuild
  have hnodup : b.seqIds.Nodup := hids ▸ hc.nodup
  refine ⟨fun output => validateExecutionOutput_eq_ok hnodup, fun output eosTokenId hvalid =>
    hc.appends hw hids (answered_of_valid hnodup hvalid) eosTokenId,
    fun output output' eosTokenId hvalid hvalid' hsame => ?_⟩
  have ha := answered_of_valid hnodup hvalid
  have ha' := answered_of_valid hnodup hvalid'
  refine Updated.sameUpToOrder hw
    (updateSequences_updated eosTokenId hw ha.nodup ha.tokens (hc.exists_active hids ha))
    (updateSequences_updated eosTokenId hw ha'.nodup ha'.tokens (hc.exists_active hids ha'))
    (updateSequences_frees _ _ _) (updateSequences_frees _ _ _) ?_ ?_ hsame
  · rw [ExecutionOutput.keys_rows ha.tokens]
    exact ha.nodup
  · rw [ExecutionOutput.keys_rows ha'.tokens]
    exact ha'.nodup

/-- A prefill and a decode that both end with the next token. -/
def mixedOps : List SchedulerOp :=
  [.addRequest 1 [5] { maxTokens := 2 }, .schedule,
    .updateSequences { nextTokens := [7], seqIds := [1] } 99, .addRequest 2 [6] { maxTokens := 1 }]

def mixedBatch : ExecutionBatch where
  inputTokens := [6, 7]
  positions := [0, 1]
  seqLens := [1, 1]
  blockTables := [[1], [0]]
  isPrefill := [true, false]
  seqIds := [2, 1]
  contextLens := [1, 2]

theorem answers_of_run_mixed :
    (((new {}).run mixedOps).scheduler.schedule.2.updateSequences
      { nextTokens := [8, 9], seqIds := [2, 1] } 99).SameUpToOrder
        (((new {}).run mixedOps).scheduler.schedule.2.updateSequences
          { nextTokens := [9, 8], seqIds := [1, 2] } 99) := by
  have hmixed := answers_of_run {} mixedOps (b := mixedBatch) (by decide +kernel)
  refine hmixed.2.2 _ _ 99 (by decide +kernel) (by decide +kernel) fun id => ?_
  rcases eq_or_ne id 1 with rfl | hone
  · rfl
  · rcases eq_or_ne id 2 with rfl | htwo
    · rfl
    · simp [ExecutionOutput.assigned, ExecutionOutput.rows, ExecutionOutput.rowsFrom,
        IdMap.lookup_cons_ne hone.symm, IdMap.lookup_cons_ne htwo.symm]

end History

end PagedServing
