import PagedServing.Scheduler.Turns

/-! # The decode loop, entry by entry

What one entry of the decode loop of `schedule` comes to, and the rule by which a
property of the entries handled so far becomes a property of the whole loop.
-/

namespace PagedServing

open FixedWidth Relation

namespace Scheduler

variable {s s' : Scheduler} {st st' : ScheduleState} {id : SeqId} {seq : Sequence}

/-- The reason of a decode sequence that is failed because the pool is empty. -/
def growthFailure : String := "Failed to allocate KV block: " ++ EngineError.outOfBlocks.display

theorem growDecodeSequence_of_empty (hw : s.Wf) (h : s.decodeSequences[id]? = some seq)
    (hneeds : seq.NeedsBlock s.config) (hnil : s.kvCache.blockPool.freeList = []) :
    s.growDecodeSequence id = (.error growthFailure, s) := by
  obtain ⟨table, htable, -⟩ := hw.pageTable_of_active (hw.active_of_decode h)
  have hif := hneeds
  rw [Sequence.NeedsBlock] at hif
  rcases KVCacheManager.allocateBlock_cases htable with ⟨-, halloc⟩ | ⟨ref, kvCache, -, hext⟩
  · simp only [growDecodeSequence, h, hif, halloc, ↓reduceIte]
    rfl
  · obtain ⟨rest, hrest⟩ := hext.head
    simp [hnil] at hrest

/-- What the loop does for one decode sequence. -/
inductive DecodeTurn (st : ScheduleState) (id : SeqId) (seq : Sequence) : ScheduleState → Prop
  | keep (henough : ¬ seq.NeedsBlock st.scheduler.config) : DecodeTurn st id seq (st.pushDecode seq)
  | grow {ref : PhysicalBlockRef} {kvCache : KVCacheManager}
      (hneeds : seq.NeedsBlock st.scheduler.config)
      (hkv : st.scheduler.kvCache.Extended id ref kvCache) :
      DecodeTurn st id seq
        ((st.withScheduler { st.scheduler with
            kvCache := kvCache
            decodeSequences := st.scheduler.decodeSequences.insert id
              { seq with logicalBlocks := seq.logicalBlocks ++ [ref] } }).pushDecode
          { seq with logicalBlocks := seq.logicalBlocks ++ [ref] })
  | fail (hneeds : seq.NeedsBlock st.scheduler.config)
      (hnil : st.scheduler.kvCache.blockPool.freeList = []) :
      DecodeTurn st id seq (st.withScheduler { st.scheduler with
        decodeSequences := st.scheduler.decodeSequences.erase id
        kvCache := st.scheduler.kvCache.freeSequence id
        completedRequests :=
          st.scheduler.completedRequests ++ [(id, seq.request.fail growthFailure)] })

namespace DecodeTurn

theorem moves (hseq : st.scheduler.decodeSequences[id]? = some seq)
    (h : DecodeTurn st id seq st') : Moves st.scheduler st'.scheduler := by
  cases h with
  | keep => exact .refl
  | grow _ hkv => exact .single (.grow hseq hkv)
  | fail => exact .single (.retire (by exact trivial) (retire_of_decode hseq _))

/-- The other decode sequences are as they were. -/
theorem decode_ne (h : DecodeTurn st id seq st') {a : Nat} (hne : a ≠ id) :
    st'.scheduler.decodeSequences[a]? = st.scheduler.decodeSequences[a]? := by
  cases h with
  | keep => rfl
  | grow => exact IdMap.get_insert_ne hne.symm
  | fail => exact IdMap.get_erase_ne hne.symm

theorem prefill_eq (h : DecodeTurn st id seq st') :
    st'.scheduler.prefillSequences = st.scheduler.prefillSequences := by
  cases h <;> rfl

theorem config_eq (h : DecodeTurn st id seq st') :
    st'.scheduler.config = st.scheduler.config := by
  cases h <;> rfl

end DecodeTurn

/-- The loop stops at a full batch, or takes a turn. -/
theorem scheduleDecode_cons (hw : st.scheduler.Wf)
    (hseq : st.scheduler.decodeSequences[id]? = some seq) (rest : List SeqId) :
    (¬ st.Fits 1 ∧ scheduleDecode (id :: rest) st = st) ∨
      (st.Fits 1 ∧ ∃ st', DecodeTurn st id seq st' ∧
        scheduleDecode (id :: rest) st = scheduleDecode rest st') := by
  simp only [scheduleDecode]
  split_ifs with hbatch htokens
  · exact .inl ⟨fun h => absurd h.1 (Nat.not_lt.2 hbatch), rfl⟩
  · exact .inl ⟨fun h => absurd h.2 (Nat.not_le.2 htokens), rfl⟩
  refine .inr ⟨⟨Nat.lt_of_not_le hbatch, Nat.le_of_not_lt htokens⟩, ?_⟩
  rcases growDecodeSequence_cases hw hseq with
    ⟨henough, hgrow⟩ | ⟨hneeds, ref, kvCache, hkv, hgrow⟩ | ⟨hneeds, hnil, -⟩
  · refine ⟨_, .keep henough, ?_⟩
    simp only [hgrow, hseq]
    rfl
  · refine ⟨_, .grow hneeds hkv, ?_⟩
    simp only [hgrow, IdMap.get_insert, ↓reduceIte]
  · refine ⟨_, .fail hneeds hnil, ?_⟩
    rw [growDecodeSequence_of_empty hw hseq hneeds hnil]
    dsimp only
    rw [failSequence_of_retire (retire_of_decode hseq _)]
    rfl

/-- A loop that has stopped stays where it is. -/
theorem scheduleDecode_append (pre post : List SeqId) (st : ScheduleState) :
    scheduleDecode (pre ++ post) st = scheduleDecode post (scheduleDecode pre st) := by
  have hfull (ids : List SeqId) {st : ScheduleState}
      (h : st.scheduler.config.maxBatchSize.toNat ≤ st.numSequences ∨
        st.scheduler.config.maxTotalTokens.toNat < saturatingAdd st.totalTokens 1) :
      scheduleDecode ids st = st := by
    cases ids with
    | nil => rfl
    | cons id rest =>
        simp only [scheduleDecode]
        split_ifs with hbatch htokens
        · rfl
        · rfl
        · exact absurd h (not_or.2 ⟨hbatch, htokens⟩)
  induction pre generalizing st with
  | nil => rfl
  | cons id rest ih =>
    simp only [List.cons_append, scheduleDecode]
    split_ifs with hbatch htokens
    · exact (hfull post (.inl hbatch)).symm
    · exact (hfull post (.inr htokens)).symm
    split
    · exact ih _
    · split <;> exact ih _

/-- The rule of the decode loop: `P` holds of the entries handled, in order, and of the
locals after them. -/
theorem scheduleDecode_induction {P : List SeqId → ScheduleState → Prop} {st₀ : ScheduleState}
    {ids : List SeqId} (hw : st₀.scheduler.Wf) (hnodup : ids.Nodup)
    (hids : ∀ id ∈ ids, ∃ seq, st₀.scheduler.decodeSequences[id]? = some seq) (hnil : P [] st₀)
    (hturn : ∀ {pre : List SeqId} {id : SeqId} {seq : Sequence} {st st' : ScheduleState},
      P pre st → st.scheduler.Wf → pre ++ [id] <+: ids → id ∉ pre →
      st₀.scheduler.decodeSequences[id]? = some seq →
      st.scheduler.decodeSequences[id]? = some seq → st.Fits 1 → DecodeTurn st id seq st' →
      P (pre ++ [id]) st') :
    ∃ pre, pre <+: ids ∧ P pre (scheduleDecode ids st₀) ∧
      (pre = ids ∨ ¬ (scheduleDecode ids st₀).Fits 1) := by
  have hgo (pre rest : List SeqId) (st : ScheduleState) (hsplit : pre ++ rest = ids)
      (hp : P pre st) (hw : st.scheduler.Wf)
      (hsame : ∀ id ∈ rest, st.scheduler.decodeSequences[id]? =
        st₀.scheduler.decodeSequences[id]?) :
      ∃ done, done <+: ids ∧ P done (scheduleDecode rest st) ∧
        (done = ids ∨ ¬ (scheduleDecode rest st).Fits 1) := by
    induction rest generalizing pre st with
    | nil => exact ⟨pre, ⟨[], hsplit⟩, hp, .inl (by simpa using hsplit)⟩
    | cons id rest ih =>
      have hmem : id ∈ ids := hsplit ▸ by simp
      obtain ⟨seq, hseq₀⟩ := hids id hmem
      have hseq := (hsame id (by simp)).trans hseq₀
      have hparts := List.nodup_append.1 (hsplit ▸ hnodup)
      have hpre : id ∉ pre := fun h => hparts.2.2 id h id (by simp) rfl
      have hrest := (List.nodup_cons.1 hparts.2.1).1
      rcases scheduleDecode_cons hw hseq rest with ⟨hfull, heq⟩ | ⟨hfits, st', hone, heq⟩
      · rw [heq]
        exact ⟨pre, ⟨id :: rest, hsplit⟩, hp, .inr hfull⟩
      · rw [heq]
        refine ih (pre ++ [id]) st' (by simpa using hsplit)
          (hturn hp hw ⟨rest, by simpa using hsplit⟩ hpre hseq₀ hseq hfits hone)
          (Moves.evolves hw (hone.moves hseq)).wf ?_
        intro a ha
        exact (hone.decode_ne fun h => hrest (h ▸ ha)).trans (hsame a (List.mem_cons_of_mem _ ha))
  exact hgo [] ids st₀ rfl hnil hw fun _ _ => rfl

/-! ## The order of the loop -/

theorem schedulesBefore_trans {a b c : UInt8 × SeqId} (h : schedulesBefore a b)
    (h' : schedulesBefore b c) : schedulesBefore a c := by
  rcases h with hlt | ⟨heq, hle⟩ <;> rcases h' with hlt' | ⟨heq', hle'⟩
  · exact .inl (UInt8.lt_trans hlt' hlt)
  · exact .inl (heq' ▸ hlt)
  · exact .inl (heq ▸ hlt')
  · exact .inr ⟨heq.trans heq', hle.trans hle'⟩

theorem schedulesBefore_total (a b : UInt8 × SeqId) :
    schedulesBefore a b ∨ schedulesBefore b a := by
  by_cases hlt : a.1 < b.1
  · exact .inr (.inl hlt)
  by_cases hgt : b.1 < a.1
  · exact .inl (.inl hgt)
  have heq : a.1 = b.1 := UInt8.le_antisymm (UInt8.not_lt.1 hgt) (UInt8.not_lt.1 hlt)
  exact (Nat.le_total a.2 b.2).imp (fun h => .inr ⟨heq, h⟩) fun h => .inr ⟨heq.symm, h⟩

theorem schedulesBefore_antisymm {p q : UInt8} {a b : SeqId} (h : schedulesBefore (p, a) (q, b))
    (h' : schedulesBefore (q, b) (p, a)) : a = b := by
  rcases h with hlt | ⟨heq, hle⟩ <;> rcases h' with hlt' | ⟨heq', hle'⟩
  · exact absurd hlt' (UInt8.lt_asymm hlt)
  · exact absurd (heq' ▸ hlt) (UInt8.lt_irrefl _)
  · exact absurd (heq ▸ hlt') (UInt8.lt_irrefl _)
  · exact Nat.le_antisymm hle hle'

/-- The decode sequence `a` has its turn before the decode sequence `b`. -/
def Precedes (s : Scheduler) (a b : SeqId) : Prop :=
  a ≠ b ∧ ∃ seq seq' : Sequence, s.decodeSequences[a]? = some seq ∧
    s.decodeSequences[b]? = some seq' ∧
    schedulesBefore (seq.request.params.priority, a) (seq'.request.params.priority, b)

/-- What a sequence is sorted by. -/
def turnKey (sequences : IdMap Sequence) (id : SeqId) : UInt8 × SeqId :=
  (match sequences[id]? with
    | some seq => seq.request.params.priority
    | none => 0, id)

theorem sortedSeqIds_pairwise (sequences : IdMap Sequence) {a b : SeqId} {seq seq' : Sequence}
    (ha : sequences[a]? = some seq) (hb : sequences[b]? = some seq')
    (hsub : [a, b].Sublist (sortedSeqIds sequences)) :
    schedulesBefore (seq.request.params.priority, a) (seq'.request.params.priority, b) := by
  let order (a b : SeqId) : Prop := schedulesBefore (turnKey sequences a) (turnKey sequences b)
  have hsorted : (sortedSeqIds sequences).Pairwise order :=
    haveI : Std.Total order := ⟨fun _ _ => schedulesBefore_total _ _⟩
    haveI : IsTrans SeqId order := ⟨fun _ _ _ => schedulesBefore_trans⟩
    List.pairwise_insertionSort _ _
  have hkey := List.pairwise_pair.1 (hsorted.sublist hsub)
  simpa only [order, turnKey, ha, hb] using hkey

/-- What has had its turn before a sequence precedes it. -/
theorem precedes_of_prefix {pre : List SeqId} (h : pre ++ [id] <+: s.decodeSeqIds) :
    ∀ a ∈ pre, s.Precedes a id := by
  intro a ha
  obtain ⟨seq, hseq⟩ := mem_sortedSeqIds.1 (h.subset (List.mem_append_left [id] ha))
  obtain ⟨seq', hseq'⟩ := mem_sortedSeqIds.1 (h.subset (List.mem_append_right pre (List.mem_singleton.2 rfl)))
  have hnodup := (sortedSeqIds_nodup s.decodeSequences).sublist h.sublist
  refine ⟨fun heq => ?_, seq, seq', hseq, hseq', sortedSeqIds_pairwise _ hseq hseq' ?_⟩
  · exact (List.nodup_append.1 hnodup).2.2 a ha id (List.mem_singleton.2 rfl) heq
  · exact ((List.singleton_sublist.2 ha).append (List.Sublist.refl [id])).trans h.sublist

theorem Precedes.asymm {a b : SeqId} (h : s.Precedes a b) : ¬ s.Precedes b a := by
  rintro ⟨-, seq', seq, hb, ha, hba⟩
  obtain ⟨hne, seqA, seqB, ha', hb', hab⟩ := h
  obtain rfl := Option.some.inj (ha.symm.trans ha')
  obtain rfl := Option.some.inj (hb.symm.trans hb')
  exact hne (schedulesBefore_antisymm hab hba)

theorem Precedes.trans {a b c : SeqId} (h : s.Precedes a b) (h' : s.Precedes b c) :
    s.Precedes a c := by
  refine ⟨fun heq => h.asymm (heq ▸ h'), ?_⟩
  obtain ⟨-, seqA, seqB, ha, hb, hab⟩ := h
  obtain ⟨-, seqB', seqC, hb', hc, hbc⟩ := h'
  obtain rfl := Option.some.inj (hb.symm.trans hb')
  exact ⟨seqA, seqC, ha, hc, schedulesBefore_trans hab hbc⟩

theorem Precedes.total {a b : SeqId} {seq seq' : Sequence} (ha : s.decodeSequences[a]? = some seq)
    (hb : s.decodeSequences[b]? = some seq') (hne : a ≠ b) : s.Precedes a b ∨ s.Precedes b a :=
  (schedulesBefore_total _ _).imp (fun h => ⟨hne, seq, seq', ha, hb, h⟩)
    fun h => ⟨hne.symm, seq', seq, hb, ha, h⟩

/-! ## The later loops -/

/-- The decode sequences and their entries in the batch are the same. -/
def SameDecode (st st' : ScheduleState) : Prop :=
  st'.scheduler.decodeSequences = st.scheduler.decodeSequences ∧
    st'.output.decodeSequences = st.output.decodeSequences

theorem SameDecode.trans {st₁ st₂ st₃ : ScheduleState} (h : SameDecode st₁ st₂)
    (h' : SameDecode st₂ st₃) : SameDecode st₁ st₃ := ⟨h'.1.trans h.1, h'.2.trans h.2⟩

theorem schedulePrefill_sameDecode (ids : List SeqId) (hw : st.scheduler.Wf) (hnodup : ids.Nodup)
    (hids : ∀ id ∈ ids, ∃ seq, st.scheduler.prefillSequences[id]? = some seq) :
    SameDecode st (schedulePrefill ids st) := by
  induction ids generalizing st with
  | nil => exact ⟨rfl, rfl⟩
  | cons id rest ih =>
    obtain ⟨hid, hrest⟩ := List.nodup_cons.1 hnodup
    obtain ⟨seq, hseq⟩ := hids id (by simp)
    have hdrop (reason : String) : SameDecode st (schedulePrefill rest
        (st.withScheduler (st.scheduler.failSequence id reason))) := by
      have hretire := retire_of_prefill (hw.nodup_parts.2.2 hseq) hseq (.failed reason)
      have hw' := hw.retire (by exact trivial) hretire
      rw [failSequence_of_retire hretire]
      refine SameDecode.trans ⟨rfl, rfl⟩ (ih hw' hrest fun a ha => ?_)
      obtain ⟨b, hb⟩ := hids a (List.mem_cons_of_mem _ ha)
      have hne : id ≠ a := fun h => hid (h ▸ ha)
      exact ⟨b, (IdMap.get_erase_ne hne).trans hb⟩
    simp only [schedulePrefill, hseq]
    split_ifs
    · exact ⟨rfl, rfl⟩
    · exact hdrop _
    · exact hdrop _
    · exact ih hw hrest fun a ha => hids a (List.mem_cons_of_mem _ ha)
    · exact SameDecode.trans ⟨rfl, rfl⟩
        (ih hw hrest fun a ha => hids a (List.mem_cons_of_mem _ ha))

theorem scanPending_sameDecode (n : Nat) (hw : st.scheduler.Wf) :
    SameDecode st (scanPending n st) := by
  induction n generalizing st with
  | zero => exact ⟨rfl, rfl⟩
  | succ n ih =>
    cases hqueue : st.scheduler.pendingQueue with
    | nil => simp [scanPending, hqueue, SameDecode]
    | cons p queue =>
        have hnone := hw.pageTable_none (hw.active_none_of_pending (p := p) (by simp [hqueue]))
        simp only [scanPending, hqueue]
        refine SameDecode.trans ?_ (ih ((considerPending_turn hw hqueue).wf hw))
        rcases considerPending_cases
            (st.withScheduler { st.scheduler with pendingQueue := queue }) hnone hw.blockSize with
          ⟨-, heq⟩ | ⟨-, reason, heq⟩ | ⟨-, -, kvCache, -, heq⟩ <;>
        · rw [heq]
          exact ⟨rfl, rfl⟩

/-- After the decode loop nothing happens to decode sequences. -/
theorem pass_sameDecode (hw : s.Wf) : SameDecode s.decodePass s.pass := by
  have hw' := (decodePass_spec hw).wf (wf_passStart hw)
  have hw'' := (prefillPass_spec hw).wf (wf_passStart hw)
  refine (schedulePrefill_sameDecode _ hw' (sortedSeqIds_nodup _) fun _ =>
    mem_sortedSeqIds.1).trans ?_
  rw [pass, schedulePending]
  split
  next => exact ⟨rfl, rfl⟩
  next =>
    refine SameDecode.trans ⟨rfl, rfl⟩ (scanPending_sameDecode _ ?_)
    exact (Move.reorder (sortPending_perm _).symm).wf hw''

/-- What the decode loop ended stays ended. -/
theorem decodePass_completed (hw : s.Wf) :
    s.decodePass.scheduler.completedRequests <+: s.schedule.2.completedRequests :=
  (Moves.evolves ((decodePass_spec hw).wf (wf_passStart hw))
    (turns_moves (pass_turns_of_decodePass hw))).completed

/-! ## What becomes of a decode sequence -/

/-- A decode sequence that has had its turn is in the batch, or was failed for want of a
block. -/
inductive Handled (config : EngineConfig) (st : ScheduleState) (id : SeqId) (seq : Sequence) : Prop
  | emitted {seq' : Sequence} (hgrown : seq.Grown config seq')
      (hout : seq' ∈ st.output.decodeSequences) (hid : seq'.seqId = id)
      (h : st.scheduler.decodeSequences[id]? = some seq')
  | failed (h : (id, seq.request.fail growthFailure) ∈ st.scheduler.completedRequests)
      (hnone : st.scheduler.decodeSequences[id]? = none)

theorem DecodeTurn.handled (hw : st.scheduler.Wf)
    (hseq : st.scheduler.decodeSequences[id]? = some seq) (h : DecodeTurn st id seq st') :
    Handled st.scheduler.config st' id seq := by
  cases h with
  | keep henough =>
      exact .emitted (.inl ⟨henough, rfl⟩) (List.mem_append_right _ (by simp))
        (hw.decode_tag hseq).1 hseq
  | grow hneeds hkv =>
      exact .emitted (.inr ⟨hneeds, _, rfl⟩) (List.mem_append_right _ (List.mem_singleton.2 rfl))
        (hw.decode_tag hseq).1 Std.ExtTreeMap.getElem?_insert_self
  | fail hneeds hnil =>
      exact .failed (List.mem_append_right _ (by simp)) (by simp)

theorem DecodeTurn.output_subset (h : DecodeTurn st id seq st') :
    st.output.decodeSequences ⊆ st'.output.decodeSequences := by
  cases h with
  | keep => exact List.subset_append_left _ _
  | grow => exact List.subset_append_left _ _
  | fail => exact List.Subset.refl _

theorem DecodeTurn.completed_subset (h : DecodeTurn st id seq st') :
    st.scheduler.completedRequests ⊆ st'.scheduler.completedRequests := by
  cases h with
  | keep => exact List.Subset.refl _
  | grow => exact List.Subset.refl _
  | fail => exact List.subset_append_left _ _

theorem Handled.keep {config : EngineConfig} {a : SeqId} {other : Sequence}
    (h : Handled config st a other) (hturn : DecodeTurn st id seq st') (hne : a ≠ id) :
    Handled config st' a other := by
  cases h with
  | emitted hgrown hout hid h =>
      exact .emitted hgrown (hturn.output_subset hout) hid ((hturn.decode_ne hne).trans h)
  | failed h hnone =>
      exact .failed (hturn.completed_subset h) ((hturn.decode_ne hne).trans hnone)

/-- The decode sequences of `pre` have been handled, the others are as they were in `s`. -/
structure HandledUpTo (s : Scheduler) (pre : List SeqId) (st : ScheduleState) : Prop where
  config : st.scheduler.config = s.config
  handled : ∀ id ∈ pre, ∀ seq, s.decodeSequences[id]? = some seq → Handled s.config st id seq
  rest : ∀ id ∉ pre, st.scheduler.decodeSequences[id]? = s.decodeSequences[id]?
  numSequences : st.numSequences ≤ pre.length
  totalTokens : st.totalTokens ≤ pre.length

theorem handledUpTo_start (s : Scheduler) : s.HandledUpTo [] s.passStart :=
  ⟨rfl, by simp, fun _ _ => rfl, le_rfl, le_rfl⟩

theorem DecodeTurn.counters (h : DecodeTurn st id seq st') :
    st'.numSequences ≤ st.numSequences + 1 ∧ st'.totalTokens ≤ st.totalTokens + 1 := by
  cases h with
  | keep => exact ⟨le_rfl, Nat.min_le_left _ _⟩
  | grow => exact ⟨le_rfl, Nat.min_le_left _ _⟩
  | fail => exact ⟨Nat.le_succ _, Nat.le_succ _⟩

theorem HandledUpTo.turn {pre : List SeqId} (h : s.HandledUpTo pre st) (hw : st.scheduler.Wf)
    (hid : id ∉ pre) (hseq : st.scheduler.decodeSequences[id]? = some seq)
    (hturn : DecodeTurn st id seq st') : s.HandledUpTo (pre ++ [id]) st' := by
  obtain ⟨hnum, htokens⟩ := hturn.counters
  refine ⟨hturn.config_eq.trans h.config, fun a ha other hother => ?_, fun a ha => ?_, ?_, ?_⟩
  · by_cases hne : a = id
    · subst hne
      obtain rfl : seq = other := Option.some.inj (hseq.symm.trans ((h.rest a hid).trans hother))
      exact h.config ▸ hturn.handled hw hseq
    · have hmem : a ∈ pre := by simpa [hne] using ha
      exact (h.handled a hmem other hother).keep hturn hne
  · have hne : a ≠ id := fun h => ha (by simp [h])
    exact (hturn.decode_ne hne).trans (h.rest a fun h => ha (List.mem_append_left _ h))
  · rw [List.length_append, List.length_singleton]
    exact hnum.trans (Nat.succ_le_succ h.numSequences)
  · rw [List.length_append, List.length_singleton]
    exact htokens.trans (Nat.succ_le_succ h.totalTokens)

/-- Fewer entries than the batch has room for leave room for one more. -/
theorem HandledUpTo.fits {pre : List SeqId} (h : s.HandledUpTo pre st)
    (hbatch : pre.length < s.config.maxBatchSize.toNat)
    (htokens : pre.length < s.config.maxTotalTokens.toNat) : st.Fits 1 := by
  rw [ScheduleState.Fits, h.config]
  refine ⟨h.numSequences.trans_lt hbatch, (Nat.min_le_left _ _).trans ?_⟩
  exact (Nat.succ_le_succ h.totalTokens).trans htokens

/-- The loop handles a part of the sequences that it goes through, in order. -/
theorem scheduleDecode_handled (hw : s.Wf) {ids : List SeqId} (h : ids <+: s.decodeSeqIds) :
    ∃ pre, pre <+: ids ∧ s.HandledUpTo pre (scheduleDecode ids s.passStart) ∧
      (pre = ids ∨ ¬ (scheduleDecode ids s.passStart).Fits 1) :=
  scheduleDecode_induction (wf_passStart hw)
    ((sortedSeqIds_nodup s.decodeSequences).sublist h.sublist)
    (fun _ hid => mem_sortedSeqIds.1 (h.subset hid)) (handledUpTo_start s)
    fun h hw _ hid _ hseq _ hturn => h.turn hw hid hseq hturn

/-- Every decode sequence is handled, unless the loop stopped at a full batch before. -/
theorem decodePass_handled (hw : s.Wf) :
    ∃ pre, pre <+: s.decodeSeqIds ∧ s.HandledUpTo pre s.decodePass ∧
      (pre = s.decodeSeqIds ∨ ¬ s.decodePass.Fits 1) :=
  scheduleDecode_handled hw List.prefix_rfl

/-! ## A batch with room for every decode sequence -/

/-- A batch can hold an entry for each decode sequence. -/
def Roomy (s : Scheduler) : Prop :=
  s.decodeSequences.size ≤ min s.config.maxBatchSize.toNat s.config.maxTotalTokens.toNat

theorem length_decodeSeqIds (s : Scheduler) : s.decodeSeqIds.length = s.decodeSequences.size := by
  rw [decodeSeqIds, (sortedSeqIds_perm _).length_eq, Std.ExtTreeMap.length_keys]

/-- Neither break of the loop is taken while a decode sequence remains. -/
theorem Roomy.fits (h : s.Roomy) (hw : s.Wf) {pre post : List SeqId}
    (hsplit : s.decodeSeqIds = pre ++ id :: post) : (scheduleDecode pre s.passStart).Fits 1 := by
  obtain ⟨done, hdone, hhandled, -⟩ :=
    scheduleDecode_handled hw ⟨id :: post, hsplit.symm⟩
  have hlen : done.length < s.decodeSequences.size := by
    rw [← length_decodeSeqIds, hsplit, List.length_append, List.length_cons]
    exact hdone.length_le.trans_lt (by omega)
  exact hhandled.fits (hlen.trans_le (h.trans (Nat.min_le_left _ _)))
    (hlen.trans_le (h.trans (Nat.min_le_right _ _)))

theorem Roomy.handled (h : s.Roomy) (hw : s.Wf)
    (hseq : s.decodeSequences[id]? = some seq) : Handled s.config s.decodePass id seq := by
  obtain ⟨pre, hpre, hhandled, hend⟩ := decodePass_handled hw
  have hall : pre = s.decodeSeqIds := by
    by_contra hne
    have hlen : pre.length < s.decodeSequences.size := by
      rw [← length_decodeSeqIds]
      exact lt_of_le_of_ne hpre.length_le fun heq => hne (hpre.eq_of_length heq)
    exact hend.resolve_left hne (hhandled.fits (hlen.trans_le (h.trans (Nat.min_le_left _ _)))
      (hlen.trans_le (h.trans (Nat.min_le_right _ _))))
  exact hhandled.handled id (hall ▸ mem_sortedSeqIds.2 ⟨seq, hseq⟩) seq hseq

end Scheduler

end PagedServing
