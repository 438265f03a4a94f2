import PagedServing.Executor.Series

/-! # The paged executor simulates the reference

Every unfinished sequence has its reference's rows behind its own table. The calls of
a conforming series keep this, and so both executors answer alike.
-/

namespace PagedServing

variable {V : Type}

/-! ## What the paged executor backs -/

namespace CpuReferenceExecutor

/-- The rows of every unfinished sequence are those of its reference, behind its table. -/
structure Backs (x : CpuReferenceExecutor V) (c : Caller) : Prop where
  formed : x.Formed
  holds : ∀ id ∉ c.finished, ∃ hidden kv,
    x.model.reference x.vocabSize (c.fed id) = some (hidden, kv) ∧ x.Holds id (c.table id) kv
  recorded : ∀ (id : SeqId) blockTable, x.seqBlockTables[id]? = some blockTable →
    id ∉ c.finished ∧ blockTable <+: c.table id
  disjoint : ∀ id ∉ c.finished, ∀ id' ∉ c.finished, id ≠ id' →
    (c.table id).Disjoint (c.table id')
  owned : ∀ v ∈ x.visits, v.Owned x.blockSize

namespace Backs

variable {x x' : CpuReferenceExecutor V} {c : Caller} {entry : BatchEntry} {id : SeqId}
  {entries : List BatchEntry}

theorem new (config : EngineConfig) (vocabSize : Nat) (model : CpuModel V) :
    (CpuReferenceExecutor.new config vocabSize model).Backs {} where
  formed := by
    intro key block hblock
    cases hblock
  holds := by
    refine fun id _ => ⟨model.zeroHidden, fun _ => [], rfl, fun layerIdx _ i kv hi => ?_⟩
    cases hi
  recorded := by
    intro id blockTable h
    simp [CpuReferenceExecutor.new] at h
  disjoint := fun _ _ _ _ _ => List.disjoint_nil_left _
  owned := by
    intro v hv
    cases hv

/-- A table that nobody has written through yet backs the same rows. -/
theorem adopt (h : x.Backs c)
    (hext : c.table entry.seqId <+: entry.blockTable)
    (hdisj : ∀ id ∉ c.finished, id ≠ entry.seqId → (c.table id).Disjoint entry.blockTable) :
    x.Backs (c.adopt entry) where
  formed := h.formed
  holds := by
    intro id hmem
    obtain ⟨hidden, kv, href, hholds⟩ := h.holds id hmem
    refine ⟨hidden, kv, href, fun layerIdx hlayer i row hi => ?_⟩
    have hrow := hholds layerIdx hlayer i row hi
    by_cases heq : id = entry.seqId
    · subst heq
      rw [c.adopt_table_self]
      exact readRow_extend hrow hext
    · rwa [c.adopt_table_ne entry heq]
  recorded := by
    intro id blockTable hrec
    obtain ⟨hfin, hinitial⟩ := h.recorded id blockTable hrec
    refine ⟨hfin, ?_⟩
    by_cases heq : id = entry.seqId
    · subst heq
      rw [c.adopt_table_self]
      exact hinitial.trans hext
    · rwa [c.adopt_table_ne entry heq]
  disjoint := by
    intro id hmem id' hmem' hne
    by_cases heq : id = entry.seqId
    · subst heq
      rw [c.adopt_table_self, c.adopt_table_ne entry (Ne.symm hne)]
      exact (hdisj id' hmem' (Ne.symm hne)).symm
    · rw [c.adopt_table_ne entry heq]
      by_cases heq' : id' = entry.seqId
      · subst heq'
        rw [c.adopt_table_self]
        exact hdisj id hmem hne
      · rw [c.adopt_table_ne entry heq']
        exact h.disjoint id hmem id' hmem' hne
  owned := h.owned

/-- The caller may take back what a failed call has fed. -/
theorem forget (h : x.Backs c) {fed : SeqId → List TokenId} (hfed : ∀ id, fed id <+: c.fed id) :
    x.Backs { c with fed := fed } where
  formed := h.formed
  holds := by
    intro id hmem
    obtain ⟨hidden, kv, href, hholds⟩ := h.holds id hmem
    obtain ⟨more, hmore⟩ := hfed id
    rw [← hmore] at href
    obtain ⟨hidden', kv', href', hinitial⟩ := CpuModel.reference_of_append href
    refine ⟨hidden', kv', href', fun layerIdx hlayer i row hi => hholds layerIdx hlayer i row ?_⟩
    obtain ⟨later, hlater⟩ := hinitial layerIdx
    rw [← hlater, List.getElem?_append_left (List.getElem?_eq_some_iff.1 hi).1, hi]
  recorded := h.recorded
  disjoint := h.disjoint
  owned := h.owned

theorem adopt_of_admits (h : x.Backs c) {blockSize : Nat} (ha : Caller.Admits blockSize c entry) :
    x.Backs (c.adopt entry) := h.adopt ha.extend ha.disjoint

/-- The entries a failed call did not reach only leave their tables behind. -/
theorem adoptAll {fed : SeqId → List TokenId} (h : x.Backs { c with fed := fed })
    {blockSize : Nat} (ha : c.Each (Caller.Admits blockSize) entries) :
    x.Backs { c.feedAll entries with fed := fed } := by
  induction entries generalizing c with
  | nil => exact h
  | cons entry rest ih =>
      have hfirst : x.Backs { c.feed entry with fed := fed } :=
        h.adopt ha.1.extend ha.1.disjoint
      exact ih hfirst ha.2

theorem recordTable (h : x.Backs c) (hid : entry.seqId ∉ c.finished)
    (htable : c.table entry.seqId = entry.blockTable) : (x.recordTable entry).Backs c where
  formed := h.formed
  holds := h.holds
  recorded := by
    intro id blockTable hrec
    rw [CpuReferenceExecutor.recordTable, IdMap.get_insert] at hrec
    split at hrec
    next heq =>
      subst heq
      obtain rfl := Option.some.inj hrec
      rw [htable]
      exact ⟨hid, List.prefix_rfl⟩
    next => exact h.recorded id blockTable hrec
  disjoint := h.disjoint
  owned := h.owned

/-- A pass over one table leaves the rows of the others, and its own earlier rows. -/
theorem of_writes (h : x.Backs c) (hid : id ∉ c.finished)
    (hw : x.Writes (c.table id) (c.fed id).length x')
    (howned : ∀ v ∈ x'.visits, v.Owned x'.blockSize) : x'.Backs c where
  formed := hw.formed h.formed
  holds := by
    intro id' hmem
    obtain ⟨hidden, kv, href, hholds⟩ := h.holds id' hmem
    refine ⟨hidden, kv, by rwa [hw.touches.model, hw.touches.vocabSize],
      fun layerIdx hlayer i row hi => ?_⟩
    have hrow := hholds layerIdx hlayer i row hi
    by_cases heq : id' = id
    · subst heq
      refine hw.keeps layerIdx i _ ?_ hrow
      rw [← CpuModel.reference_length href hlayer]
      exact (List.getElem?_eq_some_iff.1 hi).1
    · rwa [hw.touches.readRow (h.disjoint id' hmem id hid heq)]
  recorded := by
    rw [hw.touches.seqBlockTables]
    exact h.recorded
  disjoint := h.disjoint
  owned := howned

/-- The rows of one sequence have grown with its tokens. -/
theorem feed (h : x.Backs (c.adopt entry)) {hidden : V} {kv : KvLists V}
    (href : x.model.reference x.vocabSize (c.fed entry.seqId ++ entry.tokens) = some (hidden, kv))
    (hholds : x.Holds entry.seqId entry.blockTable kv) : x.Backs (c.feed entry) where
  formed := h.formed
  holds := by
    intro id hmem
    by_cases heq : id = entry.seqId
    · subst heq
      refine ⟨hidden, kv, by rwa [c.feed_fed_self], ?_⟩
      change x.Holds entry.seqId ((c.adopt entry).table entry.seqId) kv
      rwa [c.adopt_table_self]
    · rw [c.feed_fed_ne entry heq]
      exact h.holds id hmem
  recorded := h.recorded
  disjoint := h.disjoint
  owned := h.owned

/-- One entry of a batch, against the reference of its sequence. -/
theorem forwardSeq (h : x.Backs c) (hbs : 0 < x.blockSize) (ha : Caller.Admits x.blockSize c entry) :
    match x.model.reference x.vocabSize (c.fed entry.seqId ++ entry.tokens) with
    | none =>
        ((x.recordTable entry).forwardSeq entry).1 = .error .invalidOutput ∧
          ((x.recordTable entry).forwardSeq entry).2.Backs (c.adopt entry)
    | some (hidden, _) =>
        ((x.recordTable entry).forwardSeq entry).1 = .ok (x.model.sample hidden) ∧
          ((x.recordTable entry).forwardSeq entry).2.Backs (c.feed entry) := by
  have hrecorded : (x.recordTable entry).Backs (c.adopt entry) :=
    (h.adopt_of_admits ha).recordTable ha.unfinished (c.adopt_table_self entry)
  obtain ⟨hidden₀, kv, href, hholds⟩ := hrecorded.holds entry.seqId ha.unfinished
  rw [c.adopt_table_self] at hholds
  have hlen : ∀ layerIdx < numLayers, (kv layerIdx).length = (c.fed entry.seqId).length :=
    fun layerIdx hlayer => CpuModel.reference_length href hlayer
  have hsplit : x.model.reference x.vocabSize (c.fed entry.seqId ++ entry.tokens) =
      x.model.referenceFrom x.vocabSize (c.fed entry.seqId).length entry.tokens x.model.zeroHidden
        kv := CpuModel.reference_append href ha.tokens
  obtain ⟨hfollows, howned⟩ := forwardTokens_follows (x := x.recordTable entry) hbs ha.nodup ha.long
    hlen hrecorded.formed hholds hrecorded.owned x.model.zeroHidden
  have hpairs : ∀ pair ∈ entry.tokens.zip entry.positions,
      (c.fed entry.seqId).length ≤ pair.2 := by
    intro pair hmem
    have hpos := (List.of_mem_zip hmem).2
    rw [ha.positions] at hpos
    exact (List.mem_range'_1.1 hpos).1
  have hwrites := forwardTokens_writes entry.seqId ha.nodup hpairs x.model.zeroHidden
    (x.recordTable entry)
  rw [← ha.positions] at hfollows howned
  rw [hsplit, CpuReferenceExecutor.forwardSeq]
  have hmodel : (x.recordTable entry).model = x.model := rfl
  have hvocab : (x.recordTable entry).vocabSize = x.vocabSize := rfl
  rw [hmodel, hvocab] at hfollows
  rw [hmodel]
  cases hforward : forwardTokens entry.seqId entry.blockTable (entry.tokens.zip entry.positions)
      x.model.zeroHidden (x.recordTable entry) with
  | mk result x' =>
      rw [hforward] at hfollows howned hwrites
      have hsize : x'.blockSize = x.blockSize := hwrites.touches.blockSize
      have hbacked : x'.Backs (c.adopt entry) := by
        refine hrecorded.of_writes ha.unfinished ?_ (by rwa [hsize])
        rw [c.adopt_table_self]
        exact hwrites
      cases hnext : x.model.referenceFrom x.vocabSize (c.fed entry.seqId).length entry.tokens
          x.model.zeroHidden kv with
      | none =>
          rw [hnext] at hfollows
          obtain rfl : result = .error .invalidOutput := hfollows
          exact ⟨rfl, hbacked⟩
      | some state =>
          rw [hnext] at hfollows
          obtain ⟨hresult, hstored⟩ := hfollows
          obtain rfl : result = .ok state.1 := hresult
          have hsame : x'.model = x.model := hwrites.touches.model
          have href' : x'.model.reference x'.vocabSize (c.fed entry.seqId ++ entry.tokens) =
              some (state.1, state.2) := by
            rw [hsame, hwrites.touches.vocabSize, hvocab, hsplit, hnext]
          exact ⟨by dsimp only; rw [hsame], hbacked.feed href' hstored⟩

end Backs

/-! ## Batches -/

section Batches

variable {x : CpuReferenceExecutor V} {r : ReferenceExecutor V} {c : Caller}
  {entries : List BatchEntry}

/-- Both executors ended the entries with the same rows, or with the same error. -/
inductive EndsAlike (x : CpuReferenceExecutor V) (r : ReferenceExecutor V) (c : Caller)
    (entries : List BatchEntry) :
    Except EngineError (List (TokenId × TokenLogprobs)) × CpuReferenceExecutor V →
      Except EngineError (List (TokenId × TokenLogprobs)) × ReferenceExecutor V → Prop
  | ok {rows : List (TokenId × TokenLogprobs)} {x' : CpuReferenceExecutor V}
      {r' : ReferenceExecutor V} (config : x'.config = x.config)
      (backs : x'.Backs (c.feedAll entries)) (mirrors : r'.Mirrors x' (c.feedAll entries)) :
      EndsAlike x r c entries (.ok rows, x') (.ok rows, r')
  | error {e : EngineError} {x' : CpuReferenceExecutor V} {r' : ReferenceExecutor V}
      (config : x'.config = x.config) (backs : x'.Backs { c.feedAll entries with fed := c.fed })
      (mirrors : r.Mirrors x' c) : EndsAlike x r c entries (.error e, x') (.error e, r')

theorem forwardSeq_touches (x : CpuReferenceExecutor V) {entry : BatchEntry}
    (hnodup : entry.blockTable.Nodup) : x.Touches entry.blockTable (x.forwardSeq entry).2 := by
  have hpairs : ∀ pair ∈ entry.tokens.zip entry.positions, 0 ≤ pair.2 := fun _ _ =>
    Nat.zero_le _
  have hwrites := forwardTokens_writes entry.seqId hnodup hpairs x.model.zeroHidden x
  rw [forwardSeq]
  split
  next heq =>
    rw [heq] at hwrites
    exact hwrites.touches
  next heq =>
    rw [heq] at hwrites
    exact hwrites.touches

theorem executeEntries_endsAlike (h : x.Backs c) (hr : r.Mirrors x c) (hbs : 0 < x.blockSize)
    (ha : c.Each (Caller.Admits x.blockSize) entries) :
    EndsAlike x r c entries (executeEntries entries x)
      (ReferenceExecutor.executeEntries entries r) := by
  induction entries generalizing x c r with
  | nil => exact .ok rfl h hr
  | cons entry rest ih =>
      have hseq := h.forwardSeq hbs ha.1
      have hmirrors : ∀ {c' : Caller} {r' : ReferenceExecutor V}, r'.Mirrors x c' →
          r'.Mirrors ((x.recordTable entry).forwardSeq entry).2 c' := fun hm =>
        ReferenceExecutor.Mirrors.of_touches (x := x.recordTable entry)
          ⟨hm.maxBatchSize, hm.maxTotalTokens, hm.vocabSize, hm.model, hm.fed⟩
          (forwardSeq_touches _ ha.1.nodup)
      have hconfig : ((x.recordTable entry).forwardSeq entry).2.config = x.config :=
        (forwardSeq_touches (x.recordTable entry) ha.1.nodup).config
      rw [executeEntries, ReferenceExecutor.executeEntries, hr.model, hr.vocabSize, hr.fed]
      cases hforward : (x.recordTable entry).forwardSeq entry with
      | mk result x' =>
          rw [hforward] at hseq hmirrors hconfig
          cases href : x.model.reference x.vocabSize (c.fed entry.seqId ++ entry.tokens) with
          | none =>
              rw [href] at hseq
              obtain ⟨hresult, hbacks⟩ := hseq
              obtain rfl : result = .error .invalidOutput := hresult
              exact .error hconfig (Backs.adoptAll (c := c.feed entry) hbacks ha.2) (hmirrors hr)
          | some state =>
              rw [href] at hseq
              obtain ⟨hresult, hbacks⟩ := hseq
              obtain rfl : result = .ok (x.model.sample state.1) := hresult
              have hsize : x'.blockSize = x.blockSize := by
                rw [blockSize, hconfig, blockSize]
              have hrest := ih hbacks (hmirrors hr.feed) (by rwa [hsize]) (by rw [hsize]; exact ha.2)
              rcases hpaged : executeEntries rest x' with ⟨paged, x''⟩
              rcases hrefs : ReferenceExecutor.executeEntries rest (r.feed entry) with ⟨refs, r'⟩
              rw [hpaged, hrefs] at hrest
              cases hrest with
              | ok hlater hbacked hmirrored =>
                  simp only [hpaged]
                  exact .ok (hlater.trans hconfig) hbacked hmirrored
              | error hlater hbacked hmirrored =>
                  simp only [hpaged]
                  have hkept : x''.Backs { c.feedAll (entry :: rest) with fed := c.fed } :=
                    hbacked.forget (c.feed_fed_prefix entry)
                  exact .error (hlater.trans hconfig) hkept
                    ⟨hmirrored.maxBatchSize, hmirrored.maxTotalTokens, hmirrored.vocabSize,
                      hmirrored.model, hr.fed⟩

/-- One call of `execute` on both sides. -/
theorem execute_alike (h : x.Backs c) (hr : r.Mirrors x c) (hbs : 0 < x.blockSize)
    {batch : ExecutionBatch} (ha : c.Each (Caller.Admits x.blockSize) batch.entries) :
    (x.execute batch).1 = (r.execute batch).1 ∧ (x.execute batch).2.config = x.config ∧
      (x.execute batch).2.Backs (c.after batch.entries (x.execute batch).1) ∧
      (r.execute batch).2.Mirrors (x.execute batch).2
        (c.after batch.entries (x.execute batch).1) := by
  have hrefused : ∀ e : EngineError,
      x.Backs (c.after (α := ExecutionOutput) batch.entries (.error e)) := fun e =>
    Backs.adoptAll (c := c) h ha
  have hkept : ∀ e : EngineError,
      r.Mirrors x (c.after (α := ExecutionOutput) batch.entries (.error e)) := fun e =>
    ⟨hr.maxBatchSize, hr.maxTotalTokens, hr.vocabSize, hr.model, hr.fed⟩
  rw [execute, ReferenceExecutor.execute, hr.vocabSize, hr.maxBatchSize, hr.maxTotalTokens]
  split
  next hempty =>
    rw [batch.entries_of_isEmpty hempty]
    exact ⟨rfl, rfl, h, hr⟩
  next =>
    split
    next => exact ⟨rfl, rfl, hrefused _, hkept _⟩
    next =>
      split
      next => exact ⟨rfl, rfl, hrefused _, hkept _⟩
      next =>
        split
        next => exact ⟨rfl, rfl, hrefused _, hkept _⟩
        next =>
          have halike := executeEntries_endsAlike h hr hbs ha
          rcases hpaged : executeEntries batch.entries x with ⟨paged, x'⟩
          rcases hrefs : ReferenceExecutor.executeEntries batch.entries r with ⟨refs, r'⟩
          rw [hpaged, hrefs] at halike
          cases halike with
          | ok hconfig hbacked hmirrored => exact ⟨rfl, hconfig, hbacked, hmirrored⟩
          | error hconfig hbacked hmirrored =>
              exact ⟨rfl, hconfig, hbacked, hmirrored.maxBatchSize, hmirrored.maxTotalTokens,
                hmirrored.vocabSize, hmirrored.model, hmirrored.fed⟩

end Batches

/-! ## Finished sequences -/

section Finished

variable {x : CpuReferenceExecutor V} {c : Caller}

private theorem unfinished_of_finish {ids : List SeqId} {id : SeqId}
    (h : id ∉ (c.finish ids).finished) : id ∉ c.finished :=
  fun hmem => h (List.mem_append_left _ hmem)

/-- The blocks dropped with a sequence belong to no other unfinished one. -/
theorem finishOne_backs (h : x.Backs c) (id : SeqId) :
    (x.finishOne id).Backs (c.finish [id]) := by
  have hdisj : ∀ id' ∉ (c.finish [id]).finished, ∀ id'' ∉ (c.finish [id]).finished, id' ≠ id'' →
      (c.table id').Disjoint (c.table id'') := fun id' hmem id'' hmem' =>
    h.disjoint id' (unfinished_of_finish hmem) id'' (unfinished_of_finish hmem')
  have hne : ∀ {id'}, id' ∉ (c.finish [id]).finished → id' ≠ id := fun hmem heq =>
    hmem (List.mem_append_right _ (List.mem_singleton.2 heq))
  have hfinish : ∀ {id'}, id' ∉ c.finished → id' ≠ id → id' ∉ (c.finish [id]).finished := by
    intro id' hfin hid hmem
    rcases List.mem_append.1 hmem with hmem | hmem
    · exact hfin hmem
    · exact hid (List.mem_singleton.1 hmem)
  rw [finishOne]
  cases hrec : x.seqBlockTables[id]? with
  | none =>
      refine ⟨h.formed, fun id' hmem => h.holds id' (unfinished_of_finish hmem), ?_, hdisj, h.owned⟩
      intro id' blockTable hrec'
      obtain ⟨hfin, hinitial⟩ := h.recorded id' blockTable hrec'
      refine ⟨hfinish hfin ?_, hinitial⟩
      rintro rfl
      rw [hrec] at hrec'
      cases hrec'
  | some dropped =>
      obtain ⟨hfin, hdropped⟩ := h.recorded id dropped hrec
      refine ⟨?_, ?_, ?_, hdisj, h.owned⟩
      · intro key block hblock
        dsimp only at hblock
        split at hblock
        next => cases hblock
        next => exact h.formed key block hblock
      · intro id' hmem
        obtain ⟨hidden, kv, href, hholds⟩ := h.holds id' (unfinished_of_finish hmem)
        refine ⟨hidden, kv, href, fun layerIdx hlayer i row hi => ?_⟩
        rw [← hholds layerIdx hlayer i row hi]
        have hcache : ∀ blockIdx ∈ c.table id',
            (if layerIdx < numLayers ∧ blockIdx ∈ dropped then none
              else x.kvCache (layerIdx, blockIdx)) = x.kvCache (layerIdx, blockIdx) := by
          refine fun blockIdx hblock => if_neg ?_
          rintro ⟨-, hgone⟩
          exact h.disjoint id' (unfinished_of_finish hmem) id hfin (hne hmem) hblock
            (hdropped.subset hgone)
        apply readRow_congr
        · rfl
        · exact hcache
      · intro id' blockTable hrec'
        dsimp only at hrec'
        rw [IdMap.get_erase] at hrec'
        split at hrec'
        next => cases hrec'
        next hid =>
          obtain ⟨hfin', hinitial⟩ := h.recorded id' blockTable hrec'
          exact ⟨hfinish hfin' (Ne.symm hid), hinitial⟩

theorem sequencesFinished_backs (h : x.Backs c) (ids : List SeqId) :
    (x.sequencesFinished ids).Backs (c.finish ids) := by
  induction ids generalizing x c with
  | nil =>
      have hnil : c.finish [] = c := by rw [Caller.finish, List.append_nil]
      rwa [hnil]
  | cons id rest ih =>
      have hcons : c.finish (id :: rest) = (c.finish [id]).finish rest := by
        rw [Caller.finish, Caller.finish, Caller.finish, List.append_assoc, List.singleton_append]
      rw [hcons, sequencesFinished, List.foldl_cons]
      exact ih (finishOne_backs h id)

end Finished

/-! ## Whole series -/

section Series

variable {x : CpuReferenceExecutor V} {r : ReferenceExecutor V} {c : Caller}

theorem finishOne_config (x : CpuReferenceExecutor V) (id : SeqId) :
    (x.finishOne id).config = x.config ∧ (x.finishOne id).vocabSize = x.vocabSize ∧
      (x.finishOne id).model = x.model := by
  rw [finishOne]
  cases x.seqBlockTables[id]? with
  | none => exact ⟨rfl, rfl, rfl⟩
  | some blockTable => exact ⟨rfl, rfl, rfl⟩

theorem sequencesFinished_config (x : CpuReferenceExecutor V) (ids : List SeqId) :
    (x.sequencesFinished ids).config = x.config ∧
      (x.sequencesFinished ids).vocabSize = x.vocabSize ∧
        (x.sequencesFinished ids).model = x.model := by
  induction ids generalizing x with
  | nil => exact ⟨rfl, rfl, rfl⟩
  | cons id rest ih =>
      obtain ⟨hconfig, hvocab, hmodel⟩ := finishOne_config x id
      obtain ⟨hconfig', hvocab', hmodel'⟩ := ih (x.finishOne id)
      exact ⟨hconfig'.trans hconfig, hvocab'.trans hvocab, hmodel'.trans hmodel⟩

/-- Call by call, both answer alike and the paged executor backs what its caller saw. -/
theorem runCalls_alike (h : x.Backs c) (hr : r.Mirrors x c) (hbs : 0 < x.blockSize)
    (calls : List ExecutorCall) (hc : Caller.Conforms x.blockSize c (runCalls calls x).1) :
    (runCalls calls x).1 = (runCalls calls r).1 ∧
      (runCalls calls x).2.Backs ((runCalls calls x).1.foldl Caller.observe c) ∧
      (runCalls calls x).2.blockSize = x.blockSize := by
  induction calls generalizing x r c with
  | nil => exact ⟨rfl, h, rfl⟩
  | cons call rest ih =>
      cases call with
      | execute batch =>
          obtain ⟨-, hadmits, hrest⟩ := hc
          obtain ⟨hreply, hconfig, hbacks, hmirrors⟩ := execute_alike h hr hbs hadmits
          have hsize : (x.execute batch).2.blockSize = x.blockSize := by
            rw [blockSize, hconfig, blockSize]
          obtain ⟨hlog, hlast, hlastSize⟩ :=
            ih hbacks hmirrors (by rwa [hsize]) (by rw [hsize]; exact hrest)
          exact ⟨congrArg₂ (fun reply log => BackendCall.execute batch reply :: log) hreply hlog,
            hlast, hlastSize.trans hsize⟩
      | sequencesFinished ids =>
          obtain ⟨hconfig, hvocab, hmodel⟩ := sequencesFinished_config x ids
          have hsize : (x.sequencesFinished ids).blockSize = x.blockSize := by
            rw [blockSize, hconfig, blockSize]
          have hmirrors : r.Mirrors (x.sequencesFinished ids) (c.finish ids) :=
            ⟨by rw [hconfig, hr.maxBatchSize], by rw [hconfig, hr.maxTotalTokens],
              by rw [hvocab, hr.vocabSize], by rw [hmodel, hr.model], hr.fed⟩
          obtain ⟨hlog, hlast, hlastSize⟩ := ih (sequencesFinished_backs h ids) hmirrors
            (by rwa [hsize]) (by rw [hsize]; exact hc)
          exact ⟨congrArg (BackendCall.sequencesFinished ids :: ·) hlog, hlast,
            hlastSize.trans hsize⟩

/-- Over every series of calls in order, from a fresh executor, the answers are those of
the contiguous models: no block size, block table or order of the other sequences shows. -/
theorem refines_reference (config : EngineConfig) (vocabSize : Nat) (model : CpuModel V)
    (hbs : 0 < config.blockSize.toNat) (calls : List ExecutorCall)
    (h : Caller.Conforms config.blockSize.toNat {}
      (runCalls calls (CpuReferenceExecutor.new config vocabSize model)).1) :
    (runCalls calls (CpuReferenceExecutor.new config vocabSize model)).1 =
      (runCalls calls (ReferenceExecutor.new config vocabSize model)).1 :=
  (runCalls_alike (.new config vocabSize model) ⟨rfl, rfl, rfl, rfl, rfl⟩ hbs calls h).1

/-- Two positions for each block, one addition for each operation. -/
def countingModel : CpuModel Nat where
  embedding token := token
  query layerIdx hidden pos := layerIdx + hidden + pos
  key layerIdx hidden pos := layerIdx + hidden * pos
  value layerIdx hidden := layerIdx + hidden
  attend q rows := some (q + (rows.map fun row => row.1 * row.2).sum)
  transform layerIdx hidden out := layerIdx + hidden + out
  sample hidden := (hidden, ⟨hidden, .finite 0, []⟩)
  zeroHidden := 0
  zeroRow := 0

def reusingCalls : List ExecutorCall :=
  [.execute ⟨[7, 8, 9], [0, 1, 2], [3], [[0, 1]], [true], [1], [3]⟩,
    .execute ⟨[4], [3], [1], [[0, 1]], [false], [1], [4]⟩,
    .sequencesFinished [1],
    .execute ⟨[5], [0], [1], [[1]], [true], [2], [1]⟩]

theorem refines_reference_reusing :
    (runCalls reusingCalls
        (CpuReferenceExecutor.new { blockSize := 2 } 100 countingModel)).1 =
      (runCalls reusingCalls (ReferenceExecutor.new { blockSize := 2 } 100 countingModel)).1 := by
  refine refines_reference _ 100 countingModel (by decide) reusingCalls ?_
  refine ⟨by decide, ⟨⟨⟨by decide, by decide, by decide, by decide, by decide, by decide⟩, ?_⟩,
    trivial⟩, by decide, ⟨⟨⟨by decide, by decide, by decide, by decide, by decide, by decide⟩, ?_⟩,
    trivial⟩, by decide, ⟨⟨⟨by decide, by decide, by decide, by decide, by decide, by decide⟩, ?_⟩,
    trivial⟩, trivial⟩
  · exact fun _ _ _ => List.disjoint_nil_left _
  · intro id _ hne
    change (Function.update (fun _ => []) 1 [0, 1] id).Disjoint [0, 1]
    rw [Function.update_of_ne hne]
    exact List.disjoint_nil_left _
  · intro id hfin _
    have hne : id ≠ 1 := fun heq => hfin (by simp [heq, Caller.finish])
    change (Function.update (Function.update (fun _ => []) 1 [0, 1]) 1 [0, 1] id).Disjoint [1]
    rw [Function.update_of_ne hne, Function.update_of_ne hne]
    exact List.disjoint_nil_left _

end Series

end CpuReferenceExecutor

end PagedServing
