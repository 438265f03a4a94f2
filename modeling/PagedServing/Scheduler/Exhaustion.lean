import PagedServing.Scheduler.Admission
import PagedServing.Scheduler.Victims

/-! # Growth at the end of a block table

The growth test asks for room for one token more than the step feeds. A sequence whose
next position is the last slot of its table asks for a block that it does not need yet,
and is failed if the pool is empty when its turn comes.
-/

namespace PagedServing

open FixedWidth

namespace Sequence

variable {config : EngineConfig} {seq : Sequence}

instance (config : EngineConfig) (seq : Sequence) : Decidable (seq.NeedsBlock config) :=
  Nat.decLt _ _

/-- The block table has a slot for the token to be executed. -/
def HasSlot (config : EngineConfig) (seq : Sequence) : Prop :=
  ∃ position, seq.decodePosition = some position ∧
    position / config.blockSize.toNat < seq.logicalBlocks.length

/-- The context, with the token to be executed, fills the block table exactly. -/
def FillsTable (config : EngineConfig) (seq : Sequence) : Prop :=
  0 < seq.contextLen ∧ seq.contextLen < u32Max ∧
    seq.contextLen = config.blockSize.toNat * seq.logicalBlocks.length

/-- A sequence with a slot asks for a block exactly when its table is just filled. -/
theorem needsBlock_iff_fillsTable (hc : config.Valid) (hblocks : seq.logicalBlocks.length < 2 ^ 32)
    (hslot : seq.HasSlot config) : seq.NeedsBlock config ↔ seq.FillsTable config := by
  obtain ⟨position, hposition, hlt⟩ := hslot
  have hpos : 1 ≤ seq.contextLen := by
    by_contra hzero
    simp [decodePosition, hzero] at hposition
  rw [decodePosition, if_pos hpos] at hposition
  obtain rfl := Option.some.inj hposition
  rw [Nat.div_lt_iff_lt_mul hc.blockSize_pos, Nat.mul_comm] at hlt
  rw [NeedsBlock, asU32_of_lt hblocks, EngineConfig.blocksForTokens, blocksForTokens,
    lt_ceilDiv_iff hc.blockSize_pos, FillsTable]
  unfold saturatingAdd
  omega

theorem FillsTable.hasSlot (hc : config.Valid) (h : seq.FillsTable config) :
    seq.HasSlot config := by
  obtain ⟨hpos, -, heq⟩ := h
  refine ⟨seq.contextLen - 1, if_pos hpos, ?_⟩
  rw [Nat.div_lt_iff_lt_mul hc.blockSize_pos, Nat.mul_comm]
  omega

end Sequence

/-! ## What the turns before leave -/

/-- Free blocks of the pool and entries of the batch. -/
structure Supply where
  free : Nat
  entries : Nat

namespace Supply

/-- The batch has room for one more decode entry. -/
def Room (config : EngineConfig) (supply : Supply) : Prop :=
  supply.entries < config.maxBatchSize.toNat ∧ supply.entries < config.maxTotalTokens.toNat

instance (config : EngineConfig) (supply : Supply) : Decidable (supply.Room config) :=
  inferInstanceAs (Decidable (_ ∧ _))

/-- What the turn of a decode sequence leaves: it takes a block if it needs one, and gives
back its own if there is none. -/
def turn (config : EngineConfig) (supply : Supply) (seq : Sequence) : Supply :=
  if ¬ supply.Room config then supply
  else if ¬ seq.NeedsBlock config then ⟨supply.free, supply.entries + 1⟩
  else if supply.free = 0 then ⟨seq.logicalBlocks.length, supply.entries⟩
  else ⟨supply.free - 1, supply.entries + 1⟩

theorem foldl_turn_of_full {config : EngineConfig} {supply : Supply} (h : ¬ supply.Room config)
    (seqs : List Sequence) : seqs.foldl (turn config) supply = supply := by
  induction seqs with
  | nil => rfl
  | cons seq rest ih => rw [List.foldl_cons, turn, if_pos h, ih]

end Supply

namespace Scheduler

variable {s : Scheduler} {st st' : ScheduleState} {pre post : List SeqId} {id : SeqId}
  {seq : Sequence}

def supplyAfter (s : Scheduler) (ids : List SeqId) : Supply :=
  (ids.filterMap (s.decodeSequences[·]?)).foldl (Supply.turn s.config)
    ⟨s.kvCache.blockPool.freeList.length, 0⟩

def supplyBefore (s : Scheduler) (id : SeqId) : Supply :=
  s.supplyAfter (s.decodeSeqIds.takeWhile (· ≠ id))

/-- The turn of `id` comes, and no block is free then. -/
def Starved (s : Scheduler) (id : SeqId) : Prop :=
  (s.supplyBefore id).Room s.config ∧ (s.supplyBefore id).free = 0

/-- A decode sequence with a slot is not failed for want of a block, and is in the batch if
there is room when its turn comes. -/
def Spares (s : Scheduler) (id : SeqId) (seq : Sequence) : Prop :=
  seq.HasSlot s.config → ¬ s.FailsForBlock id ∧
    ((s.supplyBefore id).Room s.config → ∃ seq' ∈ s.schedule.1.decodeSequences, seq'.seqId = id)

theorem supplyAfter_append (s : Scheduler) (hseq : s.decodeSequences[id]? = some seq)
    (pre : List SeqId) : s.supplyAfter (pre ++ [id]) = (s.supplyAfter pre).turn s.config seq := by
  simp [supplyAfter, List.filterMap_append, hseq]

/-- The locals of the loop agree with the supply. -/
structure Supplied (s : Scheduler) (supply : Supply) (st : ScheduleState) : Prop where
  config : st.scheduler.config = s.config
  free : st.scheduler.kvCache.blockPool.freeList.length = supply.free
  numSequences : st.numSequences = supply.entries
  totalTokens : st.totalTokens = supply.entries

theorem Supplied.fits_iff {supply : Supply} (h : s.Supplied supply st) :
    st.Fits 1 ↔ supply.Room s.config := by
  have hbatch := UInt32.toNat_lt s.config.maxBatchSize
  rw [ScheduleState.Fits, h.config, h.numSequences, h.totalTokens, Supply.Room]
  unfold saturatingAdd u32Max
  omega

theorem Supplied.turn {supply : Supply} (h : s.Supplied supply st) (hw : st.scheduler.Wf)
    (hseq : st.scheduler.decodeSequences[id]? = some seq) (hfits : st.Fits 1)
    (hturn : DecodeTurn st id seq st') : s.Supplied (supply.turn s.config seq) st' := by
  have hroom := h.fits_iff.1 hfits
  have hone : saturatingAdd st.totalTokens 1 = supply.entries + 1 := by
    have hbatch := UInt32.toNat_lt s.config.maxBatchSize
    have hlt := hroom.1
    rw [h.totalTokens]
    exact saturatingAdd_of_lt (by omega)
  have hfree := h.free
  have hnum : st.numSequences + 1 = supply.entries + 1 := congrArg (· + 1) h.numSequences
  rw [Supply.turn, if_neg (not_not.2 hroom)]
  cases hturn with
  | keep henough =>
      rw [h.config] at henough
      rw [if_pos henough]
      exact ⟨h.config, hfree, hnum, hone⟩
  | grow hneeds hkv =>
      obtain ⟨rest, hhead⟩ := hkv.head
      have hpos : supply.free ≠ 0 := by
        rw [← hfree, hhead]
        exact Nat.succ_ne_zero _
      rw [h.config] at hneeds
      rw [if_neg (not_not.2 hneeds), if_neg hpos]
      refine ⟨h.config, ?_, hnum, hone⟩
      exact (congrArg List.length hkv.taken.freeList).trans
        ((List.length_drop ..).trans (congrArg (· - 1) hfree))
  | fail hneeds hnil =>
      obtain ⟨table, htable, heq⟩ := hw.exists_table (hw.active_of_decode hseq)
      have hzero : supply.free = 0 := by
        rw [← hfree, hnil]
        rfl
      rw [h.config] at hneeds
      rw [if_neg (not_not.2 hneeds), if_pos hzero]
      refine ⟨h.config, ?_, h.numSequences, h.totalTokens⟩
      refine (congrArg List.length
        (KVCacheManager.freeSequence_released hw.kvCache htable).freeList).trans ?_
      rw [hnil, heq, List.nil_append]
      exact List.length_map _

theorem supplied_start (s : Scheduler) : s.Supplied (s.supplyAfter []) s.passStart :=
  ⟨rfl, rfl, rfl, rfl⟩

theorem scheduleDecode_supplied (hw : s.Wf) (hpre : pre <+: s.decodeSeqIds) :
    s.Supplied (s.supplyAfter pre) (scheduleDecode pre s.passStart) := by
  obtain ⟨done, ⟨rest, rfl⟩, hdone, hend⟩ := scheduleDecode_induction
    (P := fun pre st => s.Supplied (s.supplyAfter pre) st) (wf_passStart hw)
    ((sortedSeqIds_nodup s.decodeSequences).sublist hpre.sublist)
    (fun _ hid => mem_sortedSeqIds.1 (hpre.subset hid)) (supplied_start s)
    fun h hw _ _ hseq₀ hseq hfits hturn => by
      rw [supplyAfter_append s hseq₀]
      exact h.turn hw hseq hfits hturn
  rcases hend with heq | hfull
  · rwa [← heq] at hdone ⊢
  · rw [hdone.fits_iff] at hfull
    have hsame : s.supplyAfter (done ++ rest) = s.supplyAfter done := by
      rw [supplyAfter, List.filterMap_append, List.foldl_append]
      exact Supply.foldl_turn_of_full hfull _
    rwa [hsame]

/-- After its own turn a sequence is left alone by the loop. -/
theorem scheduleDecode_of_not_mem (hw : st.scheduler.Wf) (hnodup : post.Nodup)
    (hids : ∀ a ∈ post, ∃ seq, st.scheduler.decodeSequences[a]? = some seq) (hid : id ∉ post) :
    (scheduleDecode post st).scheduler.decodeSequences[id]? =
        st.scheduler.decodeSequences[id]? ∧
      st.output.decodeSequences ⊆ (scheduleDecode post st).output.decodeSequences ∧
      st.scheduler.completedRequests ⊆ (scheduleDecode post st).scheduler.completedRequests := by
  obtain ⟨done, -, h, -⟩ := scheduleDecode_induction
    (P := fun _ st' => st'.scheduler.decodeSequences[id]? = st.scheduler.decodeSequences[id]? ∧
      st.output.decodeSequences ⊆ st'.output.decodeSequences ∧
      st.scheduler.completedRequests ⊆ st'.scheduler.completedRequests)
    hw hnodup hids ⟨rfl, List.Subset.refl _, List.Subset.refl _⟩
    fun {pre a seq st₁ st₂} h _ hpre _ _ _ _ hturn => by
      have hne : id ≠ a := fun heq => hid (heq ▸ hpre.subset (by simp))
      exact ⟨(hturn.decode_ne hne).trans h.1, List.Subset.trans h.2.1 hturn.output_subset,
        List.Subset.trans h.2.2 hturn.completed_subset⟩
  exact h

/-- What becomes of a decode sequence, by what the turns before leave. -/
inductive Outcome (s : Scheduler) (id : SeqId) (seq : Sequence) : Prop
  | passed (h : ¬ (s.supplyBefore id).Room s.config) (hspared : ¬ s.FailsForBlock id)
  | emitted {seq' : Sequence} (h : ¬ (seq.NeedsBlock s.config ∧ (s.supplyBefore id).free = 0))
      (hspared : ¬ s.FailsForBlock id) (hout : seq' ∈ s.schedule.1.decodeSequences)
      (hid : seq'.seqId = id)
  | failed (h : seq.NeedsBlock s.config ∧ s.Starved id) (hfails : s.FailsForBlock id)

theorem takeWhile_ne_append (hid : id ∉ pre) :
    (pre ++ id :: post).takeWhile (· ≠ id) = pre := by
  rw [List.takeWhile_append_of_pos fun a ha => by simpa using fun h : a = id => hid (h ▸ ha)]
  simp

theorem not_failsForBlock_of_decode (hw : s.Wf) {seq' : Sequence}
    (h : s.decodePass.scheduler.decodeSequences[id]? = some seq') : ¬ s.FailsForBlock id := by
  have hw' := (decodePass_spec hw).wf (wf_passStart hw)
  intro hfails
  obtain ⟨seq, -, hmem⟩ := (failsForBlock_iff hw).1 hfails
  have hnone := hw'.active_none_of_completed hmem
  rw [hw'.active_of_decode h] at hnone
  cases hnone

theorem decode_outcome (hw : s.Wf) (hseq : s.decodeSequences[id]? = some seq) :
    s.Outcome id seq := by
  obtain ⟨pre, post, hsplit⟩ : ∃ pre post, s.decodeSeqIds = pre ++ id :: post :=
    List.append_of_mem (mem_sortedSeqIds.2 ⟨seq, hseq⟩)
  have hnodup : (pre ++ id :: post).Nodup := hsplit ▸ sortedSeqIds_nodup s.decodeSequences
  obtain ⟨hnodup', hdisjoint⟩ := (List.nodup_append.1 hnodup).2
  have hid : id ∉ pre := fun h => hdisjoint id h id List.mem_cons_self rfl
  obtain ⟨hidpost, hpost⟩ := List.nodup_cons.1 hnodup'
  have hpre : pre <+: s.decodeSeqIds := ⟨id :: post, hsplit.symm⟩
  have hbefore : s.supplyBefore id = s.supplyAfter pre := by
    rw [supplyBefore, hsplit, takeWhile_ne_append hid]
  have hst := scheduleDecode_supplied hw hpre
  have hrun : s.decodePass = scheduleDecode (id :: post) (scheduleDecode pre s.passStart) := by
    rw [← scheduleDecode_append, ← hsplit]
    rfl
  obtain ⟨done, hdone, hhandled, -⟩ := scheduleDecode_handled hw hpre
  have hw₁ : (scheduleDecode pre s.passStart).scheduler.Wf := by
    obtain ⟨-, -, h, -⟩ := scheduleDecode_induction (P := fun _ st => st.scheduler.Wf)
      (wf_passStart hw) (List.nodup_append.1 hnodup).1
      (fun a ha => mem_sortedSeqIds.1 (hpre.subset ha)) (wf_passStart hw)
      fun _ hw _ _ _ hseq _ hturn => (Moves.evolves hw (hturn.moves hseq)).wf
    exact h
  generalize scheduleDecode pre s.passStart = st at hst hrun hhandled hw₁
  have hseq₁ : st.scheduler.decodeSequences[id]? = some seq :=
    (hhandled.rest id fun h => hid (hdone.subset h)).trans hseq
  rcases scheduleDecode_cons hw₁ hseq₁ post with ⟨hfull, heq⟩ | ⟨hfits, st', hturn, heq⟩
  · rw [heq] at hrun
    refine .passed ?_ (not_failsForBlock_of_decode hw (hrun ▸ hseq₁))
    rwa [hbefore, ← hst.fits_iff]
  have hroom := hst.fits_iff.1 hfits
  have hw' := (Moves.evolves hw₁ (hturn.moves hseq₁)).wf
  obtain ⟨hkept, hout, hended⟩ := scheduleDecode_of_not_mem hw' hpost (fun a ha => by
    have hne : a ≠ id := fun h => hidpost (h ▸ ha)
    have hapre : a ∉ pre := fun h => hdisjoint a h a (List.mem_cons_of_mem _ ha) rfl
    obtain ⟨other, hother⟩ := mem_sortedSeqIds.1
      (hsplit ▸ List.mem_append_right pre (List.mem_cons_of_mem id ha) : a ∈ s.decodeSeqIds)
    exact ⟨other, (hturn.decode_ne hne).trans
      ((hhandled.rest a fun h => hapre (hdone.subset h)).trans hother)⟩) hidpost
  rw [← heq, ← hrun] at hkept hout hended
  rw [← (pass_sameDecode hw).2] at hout
  cases hturn with
  | keep henough =>
      rw [hst.config] at henough
      exact .emitted (fun h => henough h.1) (not_failsForBlock_of_decode hw (hkept.trans hseq₁))
        (hout (List.mem_append_right _ (List.mem_singleton.2 rfl))) (hw₁.decode_tag hseq₁).1
  | grow hneeds hkv =>
      obtain ⟨rest, hhead⟩ := hkv.head
      have hpos : (s.supplyBefore id).free ≠ 0 := by
        rw [hbefore, ← hst.free, hhead]
        exact Nat.succ_ne_zero _
      have hgrown := hkept.trans Std.ExtTreeMap.getElem?_insert_self
      exact .emitted (fun h => hpos h.2) (not_failsForBlock_of_decode hw hgrown)
        (hout (List.mem_append_right _ (List.mem_singleton.2 rfl))) (hw₁.decode_tag hseq₁).1
  | fail hneeds hnil =>
      have hzero : (s.supplyBefore id).free = 0 := by
        rw [hbefore, ← hst.free, hnil]
        rfl
      rw [hst.config] at hneeds
      exact .failed ⟨hneeds, hbefore ▸ hroom, hzero⟩ ((failsForBlock_iff hw).2
        ⟨seq, hseq, hended (List.mem_append_right _ (List.mem_singleton.2 rfl))⟩)

/-- A decode sequence is spared unless its table is just filled when the pool runs dry. -/
theorem spares_iff (hw : s.Wf) (hc : s.config.Valid) (hseq : s.decodeSequences[id]? = some seq) :
    s.Spares id seq ↔ ¬ (seq.FillsTable s.config ∧ s.Starved id) := by
  have hblocks : seq.logicalBlocks.length < 2 ^ 32 := by
    obtain ⟨table, htable, heq⟩ := hw.pageTable_of_active (hw.active_of_decode hseq)
    have hle := hw.kvCache.ledger.length_units_le htable
    have hmax := UInt32.toNat_lt s.config.maxNumBlocks
    rw [PageTable.getBlockTable, List.length_map, heq, hw.poolSize] at hle
    omega
  constructor
  · rintro hspares ⟨hfills, hstarved⟩
    have hslot := hfills.hasSlot hc
    have hneeds := (Sequence.needsBlock_iff_fillsTable hc hblocks hslot).2 hfills
    cases decode_outcome hw hseq with
    | passed h _ => exact h hstarved.1
    | emitted h _ _ _ => exact h ⟨hneeds, hstarved.2⟩
    | failed _ hfails => exact (hspares hslot).1 hfails
  · intro hnot hslot
    cases decode_outcome hw hseq with
    | passed h hspared => exact ⟨hspared, fun hroom => absurd hroom h⟩
    | emitted _ hspared hout hid => exact ⟨hspared, fun _ => ⟨_, hout, hid⟩⟩
    | failed h _ =>
        exact absurd ⟨(Sequence.needsBlock_iff_fillsTable hc hblocks hslot).1 h.1, h.2⟩ hnot

end Scheduler

namespace History

open Scheduler

/-- In every reachable state a decode sequence that has a slot is executed and not failed
for want of a block, if and only if it is not the case that its table is filled exactly
and no block is free when its turn comes. -/
theorem spares_iff_of_run (config : EngineConfig) (ops : List SchedulerOp)
    (hvalid : config.validate = .ok ()) {id : SeqId} {seq : Sequence}
    (hseq : ((new config).run ops).scheduler.decodeSequences[id]? = some seq) :
    ((new config).run ops).scheduler.Spares id seq ↔
      ¬ (seq.FillsTable config ∧ ((new config).run ops).scheduler.Starved id) := by
  have hw := ((inv_new config).run ops).wf
  have hc := run_config_valid hvalid ops
  have hconfig : ((new config).run ops).scheduler.config = config :=
    config_run (inv_new config) ops
  have hspares := Scheduler.spares_iff hw hc hseq
  rwa [hconfig] at hspares

/-- Two blocks of two tokens, all of them within the watermark. -/
def drainedConfig : EngineConfig :=
  { blockSize := 2, maxNumBlocks := 2, memoryThreshold := .finite 1 }

/-- One request of two tokens that ends with its third token. -/
def drainedOps : List SchedulerOp :=
  [.addRequest 1 [5, 6] { maxTokens := 3 }, .schedule,
    .updateSequences { nextTokens := [7], seqIds := [1] } 99, .schedule,
    .updateSequences { nextTokens := [8], seqIds := [1] } 99]

/-- The request before its last step: four tokens in two blocks. -/
def drainedSequence : Sequence where
  seqId := 1
  request :=
    { Request.new 1 [5, 6] { maxTokens := 3 } with outputTokens := [7, 8], state := .decode }
  logicalBlocks := [⟨0⟩, ⟨1⟩]
  numGeneratedTokens := 2

theorem spares_iff_of_run_drained :
    ((new drainedConfig).run drainedOps).scheduler.Spares 1 drainedSequence ↔
      ¬ (drainedSequence.FillsTable drainedConfig ∧
        ((new drainedConfig).run drainedOps).scheduler.Starved 1) :=
  spares_iff_of_run drainedConfig drainedOps (by decide +kernel) (by decide +kernel)

/-- The request is failed although its next position is the second slot of its second
block, and although it would end with this step. -/
theorem not_spares_drained :
    ¬ ∀ (config : EngineConfig) (ops : List SchedulerOp) (id : SeqId) (seq : Sequence),
      config.validate = .ok () →
      ((new config).run ops).scheduler.decodeSequences[id]? = some seq →
      ((new config).run ops).scheduler.Spares id seq := by
  intro h
  have hspares := h drainedConfig drainedOps 1 drainedSequence (by decide +kernel)
    (by decide +kernel)
  have hslot : drainedSequence.HasSlot ((new drainedConfig).run drainedOps).scheduler.config :=
    ⟨3, by decide, by decide +kernel⟩
  exact (hspares hslot).1 ⟨drainedSequence, by decide +kernel, by decide +kernel⟩

end History

end PagedServing
