import PagedServing.Scheduler.DecodeLoop
import PagedServing.Scheduler.Lifecycle

/-! # Victims of an empty pool

The decode loop serves sequences in scheduling order and gives the blocks of a failed
sequence back at once. Where the blocks come from that it grants after a failure.
-/

namespace PagedServing

open FixedWidth Relation

namespace Scheduler

variable {s : Scheduler} {st st' : ScheduleState} {pre : List SeqId} {id a b : SeqId}
  {seq : Sequence} {block : BlockIdx}

/-- `a` is a decode sequence that this call of `schedule` fails for want of a block. -/
def FailsForBlock (s : Scheduler) (a : SeqId) : Prop :=
  ∃ seq : Sequence, s.decodeSequences[a]? = some seq ∧
    (a, seq.request.fail growthFailure) ∈ s.schedule.2.completedRequests

/-- `b` is a decode sequence that this call of `schedule` grants the block. -/
def GrantsBlock (s : Scheduler) (b : SeqId) (block : BlockIdx) : Prop :=
  ∃ seq seq' : Sequence, s.decodeSequences[b]? = some seq ∧
    seq' ∈ s.schedule.1.decodeSequences ∧ seq'.seqId = b ∧
    seq'.getBlockTable = seq.getBlockTable ++ [block]

/-! ## During the loop -/

/-- `a` has been failed so far. -/
def FailedBy (s : Scheduler) (st : ScheduleState) (a : SeqId) : Prop :=
  ∃ seq : Sequence, s.decodeSequences[a]? = some seq ∧
    (a, seq.request.fail growthFailure) ∈ st.scheduler.completedRequests

/-- `b` has been granted the block so far. -/
def GrantedBy (s : Scheduler) (st : ScheduleState) (b : SeqId) (block : BlockIdx) : Prop :=
  ∃ seq seq' : Sequence, s.decodeSequences[b]? = some seq ∧
    seq' ∈ st.output.decodeSequences ∧ seq'.seqId = b ∧
    seq'.getBlockTable = seq.getBlockTable ++ [block]

/-- The block was held by a sequence that has been failed, `a` itself or one after it. -/
def GivenUp (s : Scheduler) (st : ScheduleState) (a : SeqId) (block : BlockIdx) (c : SeqId) :
    Prop :=
  s.FailedBy st c ∧ (c = a ∨ s.Precedes a c) ∧
    ∃ seq : Sequence, s.decodeSequences[c]? = some seq ∧ block ∈ seq.getBlockTable

theorem GivenUp.mono {c : SeqId} (h : s.GivenUp st a block c)
    (hmono : ∀ c, s.FailedBy st c → s.FailedBy st' c) : s.GivenUp st' a block c :=
  ⟨hmono c h.1, h.2⟩

/-- What has become of the free blocks while `pre` was handled. -/
structure VictimsUpTo (s : Scheduler) (pre : List SeqId) (st : ScheduleState) : Prop where
  handled : s.HandledUpTo pre st
  order : pre <+: s.decodeSeqIds
  emitted : ∀ seq' ∈ st.output.decodeSequences, seq'.seqId ∈ pre
  failed : ∀ a, s.FailedBy st a → a ∈ pre
  free : ∀ block ∈ s.kvCache.blockPool.freeList,
    block ∈ st.scheduler.kvCache.blockPool.freeList ∨ ∃ c, s.GrantedBy st c block
  spent : ∀ a, s.FailedBy st a → ∀ block ∈ s.kvCache.blockPool.freeList,
    ∃ c, s.Precedes c a ∧ s.GrantedBy st c block
  left : ∀ a, s.FailedBy st a → ∀ block ∈ st.scheduler.kvCache.blockPool.freeList,
    ∃ c, s.GivenUp st a block c
  granted : ∀ a, s.FailedBy st a → ∀ b block, s.Precedes a b → s.GrantedBy st b block →
    ∃ c, s.GivenUp st a block c ∧ s.Precedes c b

theorem not_failedBy_passStart (hw : s.Wf) (a : SeqId) : ¬ s.FailedBy s.passStart a := by
  rintro ⟨seq, hseq, hmem⟩
  have hnone := hw.active_none_of_completed hmem
  simp [hw.active_of_decode hseq] at hnone

theorem victimsUpTo_start (hw : s.Wf) : s.VictimsUpTo [] s.passStart where
  handled := handledUpTo_start s
  order := List.nil_prefix
  emitted := by simp [passStart]
  failed a ha := absurd ha (not_failedBy_passStart hw a)
  free _ h := .inl h
  spent a ha := absurd ha (not_failedBy_passStart hw a)
  left a ha := absurd ha (not_failedBy_passStart hw a)
  granted a ha := absurd ha (not_failedBy_passStart hw a)

/-- One more emitted sequence grants what its table has beyond the old one. -/
theorem grantedBy_concat {emitted : Sequence} (hseq₀ : s.decodeSequences[id]? = some seq)
    (hemitted : emitted.seqId = id)
    (hout : st'.output.decodeSequences = st.output.decodeSequences ++ [emitted]) (b : SeqId)
    (block : BlockIdx) : s.GrantedBy st' b block ↔ s.GrantedBy st b block ∨
      b = id ∧ emitted.getBlockTable = seq.getBlockTable ++ [block] := by
  constructor
  · rintro ⟨old, seq', hold, hmem, hb, htable⟩
    rw [hout] at hmem
    rcases List.mem_append.1 hmem with hmem | hmem
    · exact .inl ⟨old, seq', hold, hmem, hb, htable⟩
    · obtain rfl := List.mem_singleton.1 hmem
      obtain rfl : id = b := hemitted.symm.trans hb
      obtain rfl := Option.some.inj (hseq₀.symm.trans hold)
      exact .inr ⟨rfl, htable⟩
  · rintro (⟨old, seq', hold, hmem, hb, htable⟩ | ⟨rfl, htable⟩)
    · exact ⟨old, seq', hold, hout ▸ List.mem_append_left _ hmem, hb, htable⟩
    · refine ⟨seq, emitted, hseq₀, ?_, hemitted, htable⟩
      rw [hout]
      exact List.mem_append_right _ (List.mem_singleton.2 rfl)

namespace VictimsUpTo

theorem emitted_concat {emitted : Sequence} (h : s.VictimsUpTo pre st)
    (hemitted : emitted.seqId = id)
    (hout : st'.output.decodeSequences = st.output.decodeSequences ++ [emitted]) :
    ∀ seq' ∈ st'.output.decodeSequences, seq'.seqId ∈ pre ++ [id] := by
  intro seq' hmem
  rw [hout] at hmem
  rcases List.mem_append.1 hmem with hmem | hmem
  · exact List.mem_append_left _ (h.emitted seq' hmem)
  · rw [List.mem_singleton.1 hmem]
    exact List.mem_append_right _ (List.mem_singleton.2 hemitted)

theorem keep (h : s.VictimsUpTo pre st) (hw : st.scheduler.Wf) (hpre : pre ++ [id] <+: s.decodeSeqIds)
    (hid : id ∉ pre) (hseq₀ : s.decodeSequences[id]? = some seq)
    (hseq : st.scheduler.decodeSequences[id]? = some seq)
    (henough : ¬ seq.NeedsBlock st.scheduler.config) :
    s.VictimsUpTo (pre ++ [id]) (st.pushDecode seq) := by
  have htag := (hw.decode_tag hseq).1
  have hout : (st.pushDecode seq).output.decodeSequences = st.output.decodeSequences ++ [seq] := rfl
  have hgranted (b : SeqId) (block : BlockIdx) :
      s.GrantedBy (st.pushDecode seq) b block ↔ s.GrantedBy st b block := by
    rw [grantedBy_concat hseq₀ htag hout]
    simp
  refine ⟨h.handled.turn hw hid hseq (.keep henough), hpre, h.emitted_concat htag hout, ?_, ?_, ?_,
    ?_, ?_⟩
  · exact fun a ha => List.mem_append_left _ (h.failed a ha)
  · simp only [hgranted]
    exact h.free
  · simp only [hgranted]
    exact h.spent
  · exact h.left
  · simp only [hgranted]
    exact h.granted

theorem grow (h : s.VictimsUpTo pre st) (hw : st.scheduler.Wf)
    (hpre : pre ++ [id] <+: s.decodeSeqIds) (hid : id ∉ pre)
    (hseq₀ : s.decodeSequences[id]? = some seq)
    (hseq : st.scheduler.decodeSequences[id]? = some seq)
    (hneeds : seq.NeedsBlock st.scheduler.config) {ref : PhysicalBlockRef} {kvCache : KVCacheManager}
    (hkv : st.scheduler.kvCache.Extended id ref kvCache)
    (hst : st' = (st.withScheduler { st.scheduler with
        kvCache := kvCache
        decodeSequences := st.scheduler.decodeSequences.insert id
          { seq with logicalBlocks := seq.logicalBlocks ++ [ref] } }).pushDecode
      { seq with logicalBlocks := seq.logicalBlocks ++ [ref] }) :
    s.VictimsUpTo (pre ++ [id]) st' := by
  have hturn : DecodeTurn st id seq st' := hst ▸ .grow hneeds hkv
  have hbefore := precedes_of_prefix hpre
  obtain ⟨rest, hhead⟩ := hkv.head
  have hfree : st'.scheduler.kvCache.blockPool.freeList = rest := by
    rw [hst]
    exact hkv.taken.freeList.trans (by rw [hhead]; rfl)
  have hcompleted : st'.scheduler.completedRequests = st.scheduler.completedRequests := by
    rw [hst]
    rfl
  have hout : st'.output.decodeSequences = st.output.decodeSequences ++
      [{ seq with logicalBlocks := seq.logicalBlocks ++ [ref] }] := by
    rw [hst]
    rfl
  have hfailed (a : SeqId) : s.FailedBy st' a ↔ s.FailedBy st a := by
    rw [FailedBy, FailedBy, hcompleted]
  have htag : ({ seq with logicalBlocks := seq.logicalBlocks ++ [ref] } : Sequence).seqId = id :=
    (hw.decode_tag hseq).1
  have hgranted (b : SeqId) (block : BlockIdx) : s.GrantedBy st' b block ↔
      s.GrantedBy st b block ∨ b = id ∧ block = ref.blockIdx := by
    rw [grantedBy_concat hseq₀ htag hout]
    simp [Sequence.getBlockTable, eq_comm]
  have hgiven {a c : SeqId} {block : BlockIdx} (hc : s.GivenUp st a block c) :
      s.GivenUp st' a block c := hc.mono fun c hc => (hfailed c).2 hc
  refine ⟨h.handled.turn hw hid hseq hturn, hpre, h.emitted_concat htag hout, ?_, ?_, ?_, ?_, ?_⟩
  · exact fun a ha => List.mem_append_left _ (h.failed a ((hfailed a).1 ha))
  · intro block hblock
    rcases h.free block hblock with hin | ⟨c, hc⟩
    · rw [hhead] at hin
      rcases List.mem_cons.1 hin with rfl | hin
      · exact .inr ⟨id, (hgranted _ _).2 (.inr ⟨rfl, rfl⟩)⟩
      · exact .inl (hfree ▸ hin)
    · exact .inr ⟨c, (hgranted _ _).2 (.inl hc)⟩
  · intro a ha block hblock
    obtain ⟨c, hc, hg⟩ := h.spent a ((hfailed a).1 ha) block hblock
    exact ⟨c, hc, (hgranted _ _).2 (.inl hg)⟩
  · intro a ha block hblock
    obtain ⟨c, hc⟩ := h.left a ((hfailed a).1 ha) block
      (hhead ▸ List.mem_cons_of_mem _ (hfree ▸ hblock))
    exact ⟨c, hgiven hc⟩
  · intro a ha b block hab hg
    have ha' := (hfailed a).1 ha
    rcases (hgranted _ _).1 hg with hg | ⟨rfl, rfl⟩
    · obtain ⟨c, hc, hcb⟩ := h.granted a ha' b block hab hg
      exact ⟨c, hgiven hc, hcb⟩
    · obtain ⟨c, hc⟩ := h.left a ha' ref.blockIdx (hhead ▸ List.mem_cons_self)
      exact ⟨c, hgiven hc, hbefore c (h.failed c hc.1)⟩

/-- A failed sequence gives its blocks back to an empty pool. -/
theorem fail (h : s.VictimsUpTo pre st) (hw : st.scheduler.Wf)
    (hpre : pre ++ [id] <+: s.decodeSeqIds) (hid : id ∉ pre)
    (hseq₀ : s.decodeSequences[id]? = some seq)
    (hseq : st.scheduler.decodeSequences[id]? = some seq)
    (hneeds : seq.NeedsBlock st.scheduler.config)
    (hnil : st.scheduler.kvCache.blockPool.freeList = [])
    (hst : st' = st.withScheduler { st.scheduler with
      decodeSequences := st.scheduler.decodeSequences.erase id
      kvCache := st.scheduler.kvCache.freeSequence id
      completedRequests :=
        st.scheduler.completedRequests ++ [(id, seq.request.fail growthFailure)] }) :
    s.VictimsUpTo (pre ++ [id]) st' := by
  have hturn : DecodeTurn st id seq st' := hst ▸ .fail hneeds hnil
  have hbefore := precedes_of_prefix hpre
  have hfree : st'.scheduler.kvCache.blockPool.freeList = seq.getBlockTable := by
    obtain ⟨table, htable, heq⟩ := hw.exists_table (hw.active_of_decode hseq)
    rw [hst]
    refine (KVCacheManager.freeSequence_released hw.kvCache htable).freeList.trans ?_
    rw [hnil, heq, List.nil_append]
  have hgranted (b : SeqId) (block : BlockIdx) : s.GrantedBy st' b block ↔
      s.GrantedBy st b block := by rw [hst]; rfl
  have hfailed (a : SeqId) : s.FailedBy st' a ↔ s.FailedBy st a ∨ a = id := by
    rw [hst]
    constructor
    · rintro ⟨old, hold, hmem⟩
      rcases List.mem_append.1 hmem with hmem | hmem
      · exact .inl ⟨old, hold, hmem⟩
      · exact .inr (Prod.ext_iff.1 (List.mem_singleton.1 hmem)).1
    · rintro (⟨old, hold, hmem⟩ | rfl)
      · exact ⟨old, hold, List.mem_append_left _ hmem⟩
      · exact ⟨seq, hseq₀, List.mem_append_right _ (List.mem_singleton.2 rfl)⟩
  have hgiven {a c : SeqId} {block : BlockIdx} (hc : s.GivenUp st a block c) :
      s.GivenUp st' a block c := hc.mono fun c hc => (hfailed c).2 (.inl hc)
  refine ⟨h.handled.turn hw hid hseq hturn, hpre, ?_, ?_, ?_, ?_, ?_, ?_⟩
  · intro seq' hmem
    rw [hst] at hmem
    exact List.mem_append_left _ (h.emitted seq' hmem)
  · intro a ha
    rcases (hfailed a).1 ha with ha | rfl
    · exact List.mem_append_left _ (h.failed a ha)
    · exact List.mem_append_right _ (List.mem_singleton.2 rfl)
  · intro block hblock
    rcases h.free block hblock with hin | ⟨c, hc⟩
    · simp [hnil] at hin
    · exact .inr ⟨c, (hgranted c block).2 hc⟩
  · intro a ha block hblock
    rcases (hfailed a).1 ha with ha | rfl
    · obtain ⟨c, hc, hg⟩ := h.spent a ha block hblock
      exact ⟨c, hc, (hgranted c block).2 hg⟩
    · rcases h.free block hblock with hin | ⟨c, seq₁, seq', hseq₁, hout, rfl, htable⟩
      · simp [hnil] at hin
      · exact ⟨_, hbefore _ (h.emitted seq' hout),
          (hgranted _ _).2 ⟨seq₁, seq', hseq₁, hout, rfl, htable⟩⟩
  · intro a ha block hblock
    refine ⟨id, (hfailed id).2 (.inr rfl), ?_, seq, hseq₀, hfree ▸ hblock⟩
    rcases (hfailed a).1 ha with ha | rfl
    · exact .inr (hbefore a (h.failed a ha))
    · exact .inl rfl
  · intro a ha b block hab hg
    have hg' := (hgranted b block).1 hg
    rcases (hfailed a).1 ha with ha | rfl
    · obtain ⟨c, hc, hcb⟩ := h.granted a ha b block hab hg'
      exact ⟨c, hgiven hc, hcb⟩
    · obtain ⟨_, seq', -, hout, rfl, -⟩ := hg'
      exact absurd hab (hbefore _ (h.emitted seq' hout)).asymm

theorem turn (h : s.VictimsUpTo pre st) (hw : st.scheduler.Wf)
    (hpre : pre ++ [id] <+: s.decodeSeqIds) (hid : id ∉ pre)
    (hseq₀ : s.decodeSequences[id]? = some seq)
    (hseq : st.scheduler.decodeSequences[id]? = some seq) (hturn : DecodeTurn st id seq st') :
    s.VictimsUpTo (pre ++ [id]) st' := by
  cases hturn with
  | keep henough => exact h.keep hw hpre hid hseq₀ hseq henough
  | grow hneeds hkv => exact h.grow hw hpre hid hseq₀ hseq hneeds hkv rfl
  | fail hneeds hnil => exact h.fail hw hpre hid hseq₀ hseq hneeds hnil rfl

end VictimsUpTo

/-! ## The whole call -/

theorem victimsUpTo_decodePass (hw : s.Wf) : ∃ pre, s.VictimsUpTo pre s.decodePass := by
  obtain ⟨pre, -, h, -⟩ := scheduleDecode_induction (P := s.VictimsUpTo) (wf_passStart hw)
    (sortedSeqIds_nodup s.decodeSequences) (fun _ => mem_sortedSeqIds.1) (victimsUpTo_start hw)
    fun h hw hpre hid hseq₀ hseq _ hturn => h.turn hw hpre hid hseq₀ hseq hturn
  exact ⟨pre, h⟩

theorem grantsBlock_iff (hw : s.Wf) : s.GrantsBlock b block ↔ s.GrantedBy s.decodePass b block := by
  have hout : s.schedule.1.decodeSequences = s.decodePass.output.decodeSequences :=
    (pass_sameDecode hw).2
  rw [GrantsBlock, GrantedBy, hout]

theorem failsForBlock_iff (hw : s.Wf) : s.FailsForBlock a ↔ s.FailedBy s.decodePass a := by
  have hw' := (Moves.evolves hw (schedule_moves hw)).wf
  have hdecode : s.schedule.2.decodeSequences = s.decodePass.scheduler.decodeSequences :=
    (pass_sameDecode hw).1
  constructor
  · rintro ⟨seq, hseq, hmem⟩
    refine ⟨seq, hseq, ?_⟩
    -- what has ended is no decode sequence any more, so the loop has handled it
    have hnone : s.decodePass.scheduler.decodeSequences[a]? = none := by
      have hactive := hw'.active_none_of_completed hmem
      rw [active, Option.or_eq_none_iff, hdecode] at hactive
      exact hactive.2
    obtain ⟨pre, -, hhandled, -⟩ := decodePass_handled hw
    by_cases hpre : a ∈ pre
    · cases hhandled.handled a hpre seq hseq with
      | emitted _ _ _ h => simp [hnone] at h
      | failed h _ => exact h
    · simp [hhandled.rest a hpre, hseq] at hnone
  · rintro ⟨seq, hseq, hmem⟩
    exact ⟨seq, hseq, (decodePass_completed hw).subset hmem⟩

end Scheduler

namespace History

/-- When a decode sequence is failed for want of a block, the blocks that were free have
all gone to sequences before it, and what is granted after it was held by a sequence
that was failed in the same call. -/
theorem victims_of_run (config : EngineConfig) (ops : List SchedulerOp) {a : SeqId}
    (h : ((new config).run ops).scheduler.FailsForBlock a) :
    (∀ block ∈ ((new config).run ops).scheduler.kvCache.blockPool.freeList,
      ∃ c, ((new config).run ops).scheduler.Precedes c a ∧
        ((new config).run ops).scheduler.GrantsBlock c block) ∧
      ∀ b block, ((new config).run ops).scheduler.Precedes a b →
        ((new config).run ops).scheduler.GrantsBlock b block →
        ∃ c, ((new config).run ops).scheduler.FailsForBlock c ∧
          (c = a ∨ ((new config).run ops).scheduler.Precedes a c) ∧
          ((new config).run ops).scheduler.Precedes c b ∧
          ∃ seq : Sequence, ((new config).run ops).scheduler.decodeSequences[c]? = some seq ∧
            block ∈ seq.getBlockTable := by
  have hw := ((inv_new config).run ops).wf
  set s := ((new config).run ops).scheduler
  obtain ⟨pre, hv⟩ := Scheduler.victimsUpTo_decodePass hw
  have ha := (Scheduler.failsForBlock_iff hw).1 h
  refine ⟨fun block hblock => ?_, fun b block hab hb => ?_⟩
  · obtain ⟨c, hc, hg⟩ := hv.spent a ha block hblock
    exact ⟨c, hc, (Scheduler.grantsBlock_iff hw).2 hg⟩
  · obtain ⟨c, ⟨hfailed, horder, hheld⟩, hcb⟩ :=
      hv.granted a ha b block hab ((Scheduler.grantsBlock_iff hw).1 hb)
    exact ⟨c, (Scheduler.failsForBlock_iff hw).2 hfailed, horder, hcb, hheld⟩

/-- Four blocks of one token: two short prompts grow until the pool is empty. -/
def crowdedConfig : EngineConfig :=
  { blockSize := 1, maxNumBlocks := 4, memoryThreshold := .finite 1 }

/-- The request with the higher priority comes first in every step. -/
def crowdedOps : List SchedulerOp :=
  [.addRequest 1 [5] { priority := 1 }, .addRequest 2 [6] {}, .schedule,
    .updateSequences { nextTokens := [7, 8], seqIds := [1, 2] } 99, .schedule,
    .updateSequences { nextTokens := [7, 8], seqIds := [1, 2] } 99]

/-- The first request after two tokens, with two of the four blocks. -/
def crowdedFirst : Sequence where
  seqId := 1
  request := { Request.new 1 [5] { priority := 1 } with outputTokens := [7, 7], state := .decode }
  logicalBlocks := [⟨0⟩, ⟨2⟩]
  numGeneratedTokens := 2

def crowdedSecond : Sequence where
  seqId := 2
  request := { Request.new 2 [6] {} with outputTokens := [8, 8], state := .decode }
  logicalBlocks := [⟨1⟩, ⟨3⟩]
  numGeneratedTokens := 2

theorem crowded_fails : ((new crowdedConfig).run crowdedOps).scheduler.FailsForBlock 1 :=
  ⟨crowdedFirst, by decide +kernel, by decide +kernel⟩

theorem crowded_precedes : ((new crowdedConfig).run crowdedOps).scheduler.Precedes 1 2 :=
  ⟨by decide, crowdedFirst, crowdedSecond, by decide +kernel, by decide +kernel, by decide⟩

theorem crowded_grants : ((new crowdedConfig).run crowdedOps).scheduler.GrantsBlock 2 0 :=
  ⟨crowdedSecond, { crowdedSecond with logicalBlocks := [⟨1⟩, ⟨3⟩, ⟨0⟩] }, by decide +kernel,
    by decide +kernel, rfl, rfl⟩

/-- The block that the second request is granted is one of the first request's. -/
theorem victims_of_run_crowded :
    ∃ c, ((new crowdedConfig).run crowdedOps).scheduler.FailsForBlock c ∧
      (c = 1 ∨ ((new crowdedConfig).run crowdedOps).scheduler.Precedes 1 c) ∧
      ((new crowdedConfig).run crowdedOps).scheduler.Precedes c 2 ∧
      ∃ seq : Sequence,
        ((new crowdedConfig).run crowdedOps).scheduler.decodeSequences[c]? = some seq ∧
          0 ∈ seq.getBlockTable :=
  (victims_of_run crowdedConfig crowdedOps crowded_fails).2 2 0 crowded_precedes crowded_grants

/-- A request is failed and a request of lower priority grows with its block. -/
theorem victim_before_granted_crowded :
    ¬ ∀ (config : EngineConfig) (ops : List SchedulerOp) (a b : SeqId) (block : BlockIdx),
      config.validate = .ok () → ((new config).run ops).scheduler.FailsForBlock a →
      ((new config).run ops).scheduler.Precedes a b →
      ¬ ((new config).run ops).scheduler.GrantsBlock b block := fun h =>
  h crowdedConfig crowdedOps 1 2 0 (by decide +kernel) crowded_fails crowded_precedes
    crowded_grants

end History

end PagedServing
