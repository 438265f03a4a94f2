import PagedServing.Scheduler.History
import PagedServing.Scheduler.Labels
import PagedServing.Scheduler.Updates

/-! # The growth of active sequences

How many sequences will need a block after their next tokens. No operation but the
scheduling pass makes that number larger than the tokens it gives out do.
-/

namespace PagedServing

open FixedWidth

/-! ## The need of one sequence -/

/-- Will the sequence need one more block once it has been given `n` more tokens? -/
def Sequence.NeedsAfter (config : EngineConfig) (n : Nat) (seq : Sequence) : Prop :=
  asU32 seq.logicalBlocks.length <
    config.blocksForTokens (saturatingAdd (saturatingAdd seq.contextLen n) 1)

instance (config : EngineConfig) (n : Nat) (seq : Sequence) :
    Decidable (seq.NeedsAfter config n) := Nat.decLt _ _

namespace Sequence

variable {config : EngineConfig} {n : Nat} {seq seq' : Sequence}

theorem contextLen_le (seq : Sequence) : seq.contextLen ≤ u32Max := saturatingAdd_le _ _

theorem needsAfter_zero : seq.NeedsAfter config 0 ↔ seq.NeedsBlock config := by
  have hle := seq.contextLen_le
  have hsame : saturatingAdd seq.contextLen 0 = seq.contextLen := by
    unfold saturatingAdd
    omega
  rw [NeedsAfter, hsame, NeedsBlock]

/-- What needs a block after being given `k` tokens has needed it after `k` more. -/
theorem NeedsAfter.of_given {k m : Nat} (h : seq'.NeedsAfter config n)
    (hblocks : seq'.logicalBlocks = seq.logicalBlocks)
    (hgiven : seq'.contextLen ≤ saturatingAdd seq.contextLen k) (hle : n + k ≤ m) :
    seq.NeedsAfter config m := by
  unfold NeedsAfter at h ⊢
  rw [← hblocks]
  refine h.trans_le (config.blocksForTokens_mono ?_)
  unfold saturatingAdd at hgiven ⊢
  omega

theorem contextLen_appendToken (seq : Sequence) (token : TokenId)
    (logprobs : Option (Option TokenLogprobs)) :
    (seq.appendToken token logprobs).contextLen ≤ saturatingAdd seq.contextLen 1 := by
  have hcount := asU32_le (seq.numGeneratedTokens + 1)
  unfold contextLen appendToken saturatingAdd
  dsimp only
  omega

end Sequence

namespace Scheduler

variable {s s' : Scheduler} {n n' : SeqId → Nat} {st st' : ScheduleState}

/-! ## The need of all -/

/-- The active sequences that will need a block once each has been given its `n` tokens. -/
def growthIds (s : Scheduler) (n : SeqId → Nat) : List SeqId :=
  (s.activeSequences.filter fun seq => seq.NeedsAfter s.config (n seq.seqId)).map (·.seqId)

/-- A block is free for each of them. -/
def Reserved (s : Scheduler) (n : SeqId → Nat) : Prop :=
  (s.growthIds n).length ≤ s.kvCache.blockPool.freeList.length

theorem nextStepGrowthReserve_eq (s : Scheduler) :
    s.nextStepGrowthReserve = asU32 (s.growthIds fun _ => 1).length := by
  rw [growthIds, List.length_map]
  rfl

theorem Wf.map_seqId_activeSequences (hw : s.Wf) :
    s.activeSequences.map (·.seqId) = s.prefillSequences.keys ++ s.decodeSequences.keys := by
  have hkeys (sequences : IdMap Sequence)
      (htag : ∀ {id : Nat} {seq : Sequence}, sequences[id]? = some seq → seq.seqId = id) :
      (IdMap.vals sequences).map (·.seqId) = sequences.keys := by
    rw [← Std.ExtTreeMap.map_fst_toList_eq_keys, IdMap.vals, List.map_map]
    exact List.map_congr_left fun pair hpair =>
      htag (Std.ExtTreeMap.mem_toList_iff_getElem?_eq_some.1 hpair)
  rw [activeSequences, List.map_append, hkeys _ fun h => (hw.prefill_tag h).1,
    hkeys _ fun h => (hw.decode_tag h).1]

theorem nodup_growthIds (hw : s.Wf) (n : SeqId → Nat) : (s.growthIds n).Nodup := by
  refine .sublist (List.filter_sublist.map _) ?_
  have hids := hw.ids_nodup
  rw [ids, List.append_assoc _ _ s.decodeSequences.keys, List.append_assoc,
    ← hw.map_seqId_activeSequences] at hids
  exact (List.nodup_append.1 (List.nodup_append.1 hids).2.1).1

theorem mem_growthIds (hw : s.Wf) {id : SeqId} : id ∈ s.growthIds n ↔
    ∃ seq, s.active id = some seq ∧ seq.NeedsAfter s.config (n id) := by
  constructor
  · intro hid
    obtain ⟨seq, hseq, rfl⟩ := List.mem_map.1 hid
    obtain ⟨hmem, hneeds⟩ := List.mem_filter.1 hseq
    exact ⟨seq, hw.active_of_mem hmem, of_decide_eq_true hneeds⟩
  · rintro ⟨seq, hactive, hneeds⟩
    obtain rfl := hw.seqId_of_active hactive
    exact List.mem_map_of_mem (List.mem_filter.2
      ⟨mem_activeSequences_of_active hactive, decide_eq_true hneeds⟩)

/-- What needs a block here has needed it there. -/
theorem length_growthIds_le (hw : s.Wf) (hw' : s'.Wf)
    (h : ∀ {id : SeqId} {seq' : Sequence}, s'.active id = some seq' →
      seq'.NeedsAfter s'.config (n' id) →
        ∃ seq, s.active id = some seq ∧ seq.NeedsAfter s.config (n id)) :
    (s'.growthIds n').length ≤ (s.growthIds n).length := by
  refine ((nodup_growthIds hw' n').subperm fun id hid => ?_).length_le
  obtain ⟨seq', hactive, hneeds⟩ := (mem_growthIds hw').1 hid
  exact (mem_growthIds hw).2 (h hactive hneeds)

/-! ## What comes before the next pass -/

/-- From `s` to `s'` a sequence is given at most its `g` tokens, and no block is taken. -/
structure Feeds (g : SeqId → Nat) (s s' : Scheduler) : Prop where
  config : s'.config = s.config
  active : ∀ {id : SeqId} {seq' : Sequence}, s'.active id = some seq' →
    ∃ seq, s.active id = some seq ∧ seq'.logicalBlocks = seq.logicalBlocks ∧
      seq'.contextLen ≤ saturatingAdd seq.contextLen (g id)
  free : s.kvCache.blockPool.freeList.length ≤ s'.kvCache.blockPool.freeList.length

namespace Feeds

variable {g g' : SeqId → Nat}

theorem same (hconfig : s'.config = s.config) (hactive : ∀ id, s'.active id = s.active id)
    (hfree : s.kvCache.blockPool.freeList.length ≤ s'.kvCache.blockPool.freeList.length) :
    Feeds g s s' := by
  refine ⟨hconfig, fun {id seq'} h => ⟨seq', hactive id ▸ h, rfl, ?_⟩, hfree⟩
  exact le_saturatingAdd_left seq'.contextLen_le

theorem refl (s : Scheduler) : Feeds g s s := same rfl (fun _ => rfl) le_rfl

theorem trans {s'' : Scheduler} (h : Feeds g s s') (h' : Feeds g' s' s'') :
    Feeds (fun id => g id + g' id) s s'' := by
  refine ⟨h'.config.trans h.config, fun {id seq''} hseq'' => ?_, h.free.trans h'.free⟩
  obtain ⟨seq', hseq', hblocks', hlen'⟩ := h'.active hseq''
  obtain ⟨seq, hseq, hblocks, hlen⟩ := h.active hseq'
  refine ⟨seq, hseq, hblocks'.trans hblocks, ?_⟩
  unfold saturatingAdd at hlen hlen' ⊢
  omega

theorem mono (h : Feeds g s s') (hle : ∀ id, g id ≤ g' id) : Feeds g' s s' := by
  refine ⟨h.config, fun {id seq'} hseq' => ?_, h.free⟩
  obtain ⟨seq, hseq, hblocks, hlen⟩ := h.active hseq'
  refine ⟨seq, hseq, hblocks, ?_⟩
  have hg := hle id
  unfold saturatingAdd at hlen ⊢
  omega

/-- The reserve outlasts the tokens it was made for. -/
theorem reserved (h : Feeds g s s') (hw : s.Wf) (hw' : s'.Wf) (hn : ∀ id, n' id + g id ≤ n id)
    (hs : s.Reserved n) : s'.Reserved n' := by
  refine (length_growthIds_le hw hw' fun {id seq'} hseq' hneeds => ?_).trans (hs.trans h.free)
  obtain ⟨seq, hseq, hblocks, hlen⟩ := h.active hseq'
  rw [h.config] at hneeds
  exact ⟨seq, hseq, hneeds.of_given hblocks hlen (hn id)⟩

end Feeds

/-! ### Terminations -/

variable {g : SeqId → Nat} {id : SeqId}

theorem retire_feeds (hw : s.Wf) {state : RequestState} (h : s.retire id state = some s') :
    Feeds g s s' := by
  obtain ⟨seq, hr⟩ := retire_spec hw h
  obtain ⟨table, htable, -⟩ := hw.pageTable_of_active hr.was
  have hconfig : s'.config = s.config := by
    rcases retire_cases h with ⟨_, _, rfl⟩ | ⟨_, _, _, rfl⟩ <;> rfl
  refine ⟨hconfig, fun {a seq'} hseq' => ?_, ?_⟩
  · rw [hr.active] at hseq'
    split at hseq'
    next => cases hseq'
    next => exact ⟨seq', hseq', rfl, le_saturatingAdd_left seq'.contextLen_le⟩
  · rw [hr.kvCache, (KVCacheManager.freeSequence_released hw.kvCache htable).freeList,
      List.length_append]
    exact Nat.le_add_right _ _

theorem completeSequence_feeds (hw : s.Wf) (id : SeqId) : Feeds g s (s.completeSequence id) := by
  rw [completeSequence]
  cases h : s.retire id .completed with
  | none => exact .refl s
  | some s' => exact retire_feeds hw h

theorem failSequence_feeds (hw : s.Wf) (id : SeqId) (reason : String) :
    Feeds g s (s.failSequence id reason) := by
  rcases failSequence_cases s id reason with h | ⟨-, p, queue, -, -, -, heq⟩ | ⟨-, -, heq⟩
  · exact retire_feeds hw h
  · rw [heq]
    exact .same rfl (fun _ => rfl) le_rfl
  · rw [heq]
    exact .refl s

theorem failByRequestId_feeds (hw : s.Wf) (requestId : RequestId) (reason : String) :
    Feeds g s (s.failByRequestId requestId reason).2 := by
  rw [failByRequestId]
  split
  next => exact failSequence_feeds hw _ reason
  next => exact .refl s

/-- A loop whose turns give out no tokens. -/
theorem foldl_feeds {α : Type} {f : Scheduler → α → Scheduler}
    (hmoves : ∀ (s : Scheduler) (x : α), Moves s (f s x))
    (hf : ∀ {s : Scheduler} (x : α), s.Wf → Feeds (fun _ => 0) s (f s x)) (hw : s.Wf)
    (xs : List α) : Feeds (fun _ => 0) s (xs.foldl f s) :=
  foldl_of_moves Feeds.refl Feeds.trans hmoves hf hw xs

theorem truncateActive_feeds (hw : s.Wf) (id : SeqId) (keepTokens : Nat) :
    Feeds g s (s.truncateActive id keepTokens) := by
  have hstop (seq : Sequence) : (seq.stopAt keepTokens).contextLen ≤
      saturatingAdd seq.contextLen (g id) := le_saturatingAdd_left seq.contextLen_le
  have hedit {s' : Scheduler} {seq : Sequence} (hseq : s.active id = some seq)
      (hactive : ∀ a : Nat,
        s'.active a = if id = a then some (seq.stopAt keepTokens) else s.active a)
      (hconfig : s'.config = s.config) (hkv : s'.kvCache = s.kvCache) : Feeds g s s' := by
    refine ⟨hconfig, fun {a seq'} hseq' => ?_, by rw [hkv]⟩
    rw [hactive] at hseq'
    split at hseq'
    next heq =>
      subst heq
      obtain rfl := Option.some.inj hseq'
      exact ⟨seq, hseq, rfl, hstop seq⟩
    next => exact ⟨seq', hseq', rfl, le_saturatingAdd_left seq'.contextLen_le⟩
  rw [truncateActive]
  split
  next seq hseq =>
    refine hedit (Wf.active_of_prefill hseq) (fun a => ?_) rfl rfl
    simp only [active, IdMap.get_insert]
    split <;> rfl
  next hnone =>
    split
    next seq hseq =>
      refine hedit (hw.active_of_decode hseq) (fun a => ?_) rfl rfl
      simp only [active, IdMap.get_insert]
      split
      next heq => rw [← heq, hnone, Option.none_or]
      next => rfl
    next => exact .refl s

theorem completeByStopSequence_feeds (hw : s.Wf) (requestId : RequestId) (keepTokens : Nat) :
    Feeds (fun _ => 0) s (s.completeByStopSequence requestId keepTokens).2 := by
  rw [completeByStopSequence]
  split
  next seq _ =>
    have hw' := (Moves.evolves hw (truncateActive_moves s seq.seqId keepTokens)).wf
    have hstop : Feeds (fun _ => 0) s (s.truncateActive seq.seqId keepTokens) :=
      truncateActive_feeds hw _ keepTokens
    exact hstop.trans (completeSequence_feeds (g := fun _ => 0) hw' _)
  next => exact .refl s

/-! ### The update -/

theorem transitionPrefillToDecode_kvCache (s : Scheduler) (id : SeqId) :
    (s.transitionPrefillToDecode id).kvCache = s.kvCache := by
  rw [transitionPrefillToDecode]
  split <;> rfl

theorem updateRow_kvCache (outputs : ExecutionOutput) (eosTokenId : TokenId) (st : UpdateState)
    (index : Nat) (id : SeqId) :
    (updateRow outputs eosTokenId st index id).scheduler.kvCache = st.scheduler.kvCache := by
  have hkv := transitionPrefillToDecode_kvCache st.scheduler id
  rw [updateRow]
  split
  next => rfl
  next =>
    dsimp only
    split
    next => split <;> exact hkv
    next => exact hkv

/-- A row without a token, or for a sequence that is not active, feeds nothing. -/
theorem updateRow_feeds {outputs : ExecutionOutput} (eosTokenId : TokenId) {st : UpdateState}
    (hw : st.scheduler.Wf) (index : Nat) (id : SeqId) :
    Feeds (([id].take (outputs.nextTokens.length - index)).count ·) st.scheduler
      (updateRow outputs eosTokenId st index id).scheduler := by
  cases htoken : outputs.nextTokens[index]? with
  | none =>
      rw [updateRow, htoken]
      exact .refl _
  | some token =>
      have hlt := (List.getElem?_eq_some_iff.1 htoken).1
      have htake : [id].take (outputs.nextTokens.length - index) = [id] :=
        List.take_of_length_le (by rw [List.length_singleton]; omega)
      rw [htake]
      cases hactive : st.scheduler.active id with
      | none =>
          obtain ⟨hprefill, hdecode⟩ := Option.or_eq_none_iff.1 hactive
          simp only [updateRow, htoken, transitionPrefillToDecode, hprefill, hdecode]
          exact .refl _
      | some seq =>
          have happlied := updateRow_applied eosTokenId hw htoken hactive
          refine ⟨(Moves.evolves hw happlied.moves).config, fun {a seq'} hseq' => ?_,
            by rw [updateRow_kvCache]⟩
          by_cases ha : a = id
          · subst ha
            have hnext : (updateRow outputs eosTokenId st index a).scheduler.active a =
                some (seq.next ⟨token, outputs.logprobs[index]?⟩) := by
              rw [active, happlied.prefill, happlied.decode]
              simp [hactive]
            obtain rfl := Option.some.inj (hnext.symm.trans hseq')
            refine ⟨seq, hactive, rfl, ?_⟩
            rw [List.count_singleton_self]
            exact Sequence.contextLen_appendToken _ token _
          · have hsame : (updateRow outputs eosTokenId st index id).scheduler.active a =
                st.scheduler.active a := by
              rw [active, happlied.prefill, happlied.decode, IdMap.lookup_cons_ne (Ne.symm ha)]
              rfl
            exact ⟨seq', hsame ▸ hseq', rfl, le_saturatingAdd_left seq'.contextLen_le⟩

theorem updateRows_feeds {outputs : ExecutionOutput} (eosTokenId : TokenId) {st : UpdateState}
    (hw : st.scheduler.Wf) (index : Nat) (ids : List SeqId) :
    Feeds ((ids.take (outputs.nextTokens.length - index)).count ·) st.scheduler
      (updateRows outputs eosTokenId index ids st).scheduler := by
  induction ids generalizing index st with
  | nil => exact .refl _
  | cons id rest ih =>
      have hw' := (Moves.evolves hw (updateRow_moves outputs eosTokenId st index id)).wf
      refine ((updateRow_feeds eosTokenId hw index id).trans (ih hw' (index + 1))).mono fun a => ?_
      rw [← List.count_append]
      refine le_of_eq (congrArg (List.count a) ?_)
      rcases Nat.lt_or_ge index outputs.nextTokens.length with hlt | hge
      · have hleft : outputs.nextTokens.length - index =
            outputs.nextTokens.length - (index + 1) + 1 := by omega
        rw [hleft, List.take_succ_cons, List.take_succ_cons, List.take_nil]
        rfl
      · rw [Nat.sub_eq_zero_of_le hge, Nat.sub_eq_zero_of_le (hge.trans (Nat.le_succ _))]
        rfl

theorem updateSequences_feeds (hw : s.Wf) (outputs : ExecutionOutput) (eosTokenId : TokenId) :
    Feeds ((outputs.seqIds.take outputs.nextTokens.length).count ·) s
      (s.updateSequences outputs eosTokenId) := by
  rw [updateSequences]
  have hw₀ : ({ scheduler := s } : UpdateState).scheduler.Wf := hw
  have hrows : Feeds ((outputs.seqIds.take (outputs.nextTokens.length - 0)).count ·) s
      (updateRows outputs eosTokenId 0 outputs.seqIds { scheduler := s }).scheduler :=
    updateRows_feeds eosTokenId hw₀ 0 outputs.seqIds
  have hmoves := updateRows_moves outputs eosTokenId outputs.seqIds 0 { scheduler := s }
  generalize updateRows outputs eosTokenId 0 outputs.seqIds { scheduler := s } = st at hrows hmoves
  have hw' := (Moves.evolves hw hmoves).wf
  have hfail : Feeds (fun _ => 0) st.scheduler (st.scheduler.failAll st.toFail) :=
    foldl_feeds (fun s (f : SeqId × String) => failSequence_moves s f.1 f.2)
      (fun f hw => failSequence_feeds hw f.1 f.2) hw' st.toFail
  have hw'' := (Moves.evolves hw' (failAll_moves st.scheduler st.toFail)).wf
  exact (hrows.trans hfail).trans
    (foldl_feeds completeSequence_moves (fun id hw => completeSequence_feeds hw id) hw'' _)

end Scheduler

/-- The sequences that an operation gives a token each. -/
def SchedulerOp.fedIds : SchedulerOp → List SeqId
  | .updateSequences outputs _ => outputs.seqIds.take outputs.nextTokens.length
  | _ => []

namespace History

open Scheduler

variable {h : History}

theorem apply_feeds (hi : h.Inv) {op : SchedulerOp} (hop : op ≠ .schedule) :
    Feeds (op.fedIds.count ·) h.scheduler (h.apply op).scheduler := by
  cases op with
  | addRequest id inputTokens params =>
      rw [apply, addRequest]
      rcases addRequest_cases h.scheduler (Request.new id inputTokens params) with
        ⟨-, heq⟩ | ⟨e, heq⟩
      · rw [heq]
        exact .same rfl (fun _ => rfl) le_rfl
      · rw [heq]
        exact .same rfl (fun _ => rfl) le_rfl
  | schedule => exact absurd rfl hop
  | updateSequences outputs eosTokenId => exact updateSequences_feeds hi.wf outputs eosTokenId
  | cancelByRequestId requestId => exact failByRequestId_feeds hi.wf requestId _
  | failByRequestId requestId reason => exact failByRequestId_feeds hi.wf requestId reason
  | failSequences seqIds reason =>
      exact foldl_feeds (fun s id => failSequence_moves s id reason)
        (fun id hw => failSequence_feeds hw id reason) hi.wf seqIds
  | completeByStopSequence requestId keepTokens =>
      exact completeByStopSequence_feeds hi.wf requestId keepTokens
  | failPendingRequests reason => exact .same rfl (fun _ => rfl) le_rfl
  | takeCompletedWithSeqIds => exact .same rfl (fun _ => rfl) le_rfl
  | getCompleted => exact .same rfl (fun _ => rfl) le_rfl

theorem run_feeds (hi : h.Inv) {ops : List SchedulerOp} (hops : .schedule ∉ ops) :
    Feeds ((ops.flatMap SchedulerOp.fedIds).count ·) h.scheduler (h.run ops).scheduler := by
  induction ops generalizing h with
  | nil => exact .refl _
  | cons op rest ih =>
      rw [List.mem_cons, not_or] at hops
      obtain ⟨hop, hrest⟩ := hops
      refine ((apply_feeds hi (Ne.symm hop)).trans (ih (hi.apply op) hrest)).mono fun a => ?_
      rw [List.flatMap_cons, List.count_append]

end History

end PagedServing
