import PagedServing.Executor.Simulation

/-! # Cache blocks belong to recorded tables

What the executor stores lies in a table it has recorded, and it has recorded tables
of unfinished sequences only. Unlike the rows themselves this does not need the
tables of different sequences to be disjoint.
-/

namespace PagedServing

variable {V : Type}

namespace CpuReferenceExecutor

variable {x x' : CpuReferenceExecutor V} {c : Caller} {entry : BatchEntry}
  {entries : List BatchEntry} {blockSize : Nat}

structure Covered (x : CpuReferenceExecutor V) (c : Caller) : Prop where
  recorded : ∀ (id : SeqId) blockTable, x.seqBlockTables[id]? = some blockTable →
    id ∉ c.finished ∧ blockTable ≠ [] ∧ blockTable <+: c.table id
  keys : ∀ key block, x.kvCache key = some block → key.1 < numLayers ∧
    ∃ (id : SeqId) (blockTable : List BlockIdx),
      x.seqBlockTables[id]? = some blockTable ∧ key.2 ∈ blockTable

/-- A call is refused as a whole, or its entries are run. -/
theorem execute_cases (x : CpuReferenceExecutor V) (batch : ExecutionBatch) :
    (batch.entries = [] ∧ x.execute batch = (.ok {}, x)) ∨
      (∃ e, x.execute batch = (.error e, x)) ∨
      (x.execute batch).2 = (executeEntries batch.entries x).2 ∧
        ∀ output, (x.execute batch).1 = .ok output →
          ∃ rows, (executeEntries batch.entries x).1 = .ok rows := by
  rw [execute]
  split
  next hempty => exact .inl ⟨batch.entries_of_isEmpty hempty, rfl⟩
  next =>
    refine .inr ?_
    split
    next => exact .inl ⟨_, rfl⟩
    next =>
      split
      next => exact .inl ⟨_, rfl⟩
      next =>
        split
        next => exact .inl ⟨_, rfl⟩
        next =>
          refine .inr ?_
          cases hrun : executeEntries batch.entries x with
          | mk result x' =>
              cases result with
              | error e =>
                  refine ⟨rfl, fun _ hok => ?_⟩
                  cases hok
              | ok rows => exact ⟨rfl, fun _ _ => ⟨rows, rfl⟩⟩

theorem recordTable_get (x : CpuReferenceExecutor V) (entry : BatchEntry) (id : SeqId) :
    (x.recordTable entry).seqBlockTables[id]? =
      if entry.seqId = id then some entry.blockTable else x.seqBlockTables[id]? :=
  IdMap.get_insert ..

namespace Covered

theorem new (config : EngineConfig) (vocabSize : Nat) (model : CpuModel V) :
    (CpuReferenceExecutor.new config vocabSize model).Covered {} := by
  refine ⟨fun id blockTable h => ?_, fun key block h => nomatch h⟩
  simp [CpuReferenceExecutor.new] at h

theorem adopt (h : x.Covered c) (hext : c.table entry.seqId <+: entry.blockTable) :
    x.Covered (c.adopt entry) := by
  refine ⟨fun id blockTable hrec => ?_, h.keys⟩
  obtain ⟨hfin, hne, hinitial⟩ := h.recorded id blockTable hrec
  refine ⟨hfin, hne, ?_⟩
  by_cases heq : id = entry.seqId
  · subst heq
    rw [c.adopt_table_self]
    exact hinitial.trans hext
  · rwa [c.adopt_table_ne entry heq]

theorem adoptAll (h : x.Covered c) (hc : c.Each (Caller.Continues blockSize) entries) :
    x.Covered (c.feedAll entries) := by
  induction entries generalizing c with
  | nil => exact h
  | cons entry rest ih =>
      have hfirst := h.adopt hc.1.extend
      exact ih (c := c.feed entry) ⟨hfirst.recorded, hfirst.keys⟩ hc.2

/-- A recorded table covers what the last one of its sequence did. -/
theorem recordTable (h : x.Covered c) (hc : Caller.Continues blockSize c entry) :
    (x.recordTable entry).Covered (c.adopt entry) := by
  have hrecorded := x.recordTable_get entry
  refine ⟨fun id blockTable hrec => ?_, fun key block hblock => ?_⟩
  · rw [hrecorded] at hrec
    split at hrec
    next heq =>
      subst heq
      obtain rfl := Option.some.inj hrec
      refine ⟨hc.unfinished, ?_, by rw [c.adopt_table_self]⟩
      rintro hnil
      have hlong := hc.long
      have htokens := List.length_pos_of_ne_nil hc.tokens
      rw [hnil, List.length_nil, Nat.zero_mul] at hlong
      omega
    next => exact (h.adopt hc.extend).recorded id blockTable hrec
  · obtain ⟨hlayer, id, blockTable, hrec, hmem⟩ := h.keys key block hblock
    refine ⟨hlayer, ?_⟩
    by_cases heq : entry.seqId = id
    · subst heq
      have hinitial := (h.recorded _ _ hrec).2.2.trans hc.extend
      exact ⟨entry.seqId, entry.blockTable, by rw [hrecorded, if_pos rfl], hinitial.subset hmem⟩
    · exact ⟨id, blockTable, by rw [hrecorded, if_neg heq]; exact hrec, hmem⟩

theorem of_touches (h : x.Covered c) {id : SeqId} {blockTable : List BlockIdx}
    (hrec : x.seqBlockTables[id]? = some blockTable) (ht : x.Touches blockTable x') :
    x'.Covered c := by
  refine ⟨?_, fun key block hblock => ?_⟩
  · rw [ht.seqBlockTables]
    exact h.recorded
  · rw [ht.seqBlockTables]
    by_cases hin : key.2 ∈ blockTable ∧ key.1 < numLayers
    · exact ⟨hin.2, id, blockTable, hrec, hin.1⟩
    · rw [not_and_or, Nat.not_lt] at hin
      rw [ht.kvCache key.1 key.2 hin] at hblock
      exact h.keys key block hblock

theorem forwardSeq (h : x.Covered c) (hc : Caller.Continues blockSize c entry) :
    ((x.recordTable entry).forwardSeq entry).2.Covered (c.adopt entry) := by
  have hrec : (x.recordTable entry).seqBlockTables[entry.seqId]? = some entry.blockTable := by
    simp [CpuReferenceExecutor.recordTable]
  exact (h.recordTable hc).of_touches hrec (forwardSeq_touches _ hc.nodup)

theorem executeEntries (h : x.Covered c) (hc : c.Each (Caller.Continues blockSize) entries) :
    (executeEntries entries x).2.Covered (c.feedAll entries) := by
  induction entries generalizing x c with
  | nil => exact h
  | cons entry rest ih =>
      have hseq := h.forwardSeq hc.1
      have hfed : ((x.recordTable entry).forwardSeq entry).2.Covered (c.feed entry) :=
        ⟨hseq.recorded, hseq.keys⟩
      rw [CpuReferenceExecutor.executeEntries]
      split
      next heq =>
        rw [heq] at hfed
        exact hfed.adoptAll hc.2
      next next x' heq =>
        rw [heq] at hfed
        have hrest := ih hfed hc.2
        split
        next heq' =>
          rw [heq'] at hrest
          exact hrest
        next heq' =>
          rw [heq'] at hrest
          exact hrest

theorem execute (h : x.Covered c) {batch : ExecutionBatch}
    (hc : c.Each (Caller.Continues blockSize) batch.entries) :
    (x.execute batch).2.Covered (c.after batch.entries (x.execute batch).1) := by
  have hafter : ∀ {x' : CpuReferenceExecutor V} {reply : Except EngineError ExecutionOutput},
      x'.Covered (c.feedAll batch.entries) → x'.Covered (c.after batch.entries reply) := by
    intro x' reply hx'
    cases reply with
    | ok output => exact hx'
    | error e => exact ⟨hx'.recorded, hx'.keys⟩
  apply hafter
  rcases execute_cases x batch with ⟨-, heq⟩ | ⟨e, heq⟩ | ⟨heq, -⟩
  · rw [heq]
    exact h.adoptAll hc
  · rw [heq]
    exact h.adoptAll hc
  · rw [heq]
    exact h.executeEntries hc

/-- The blocks of a finished sequence go, unless another table has them too. -/
theorem finishOne (h : x.Covered c) (id : SeqId) : (x.finishOne id).Covered (c.finish [id]) := by
  have hfinish : ∀ {id'}, id' ∉ c.finished → id' ≠ id → id' ∉ (c.finish [id]).finished := by
    intro id' hfin hne hmem
    exact (List.mem_append.1 hmem).elim hfin fun hmem => hne (List.mem_singleton.1 hmem)
  rw [CpuReferenceExecutor.finishOne]
  cases hrec : x.seqBlockTables[id]? with
  | none =>
      refine ⟨fun id' blockTable hrec' => ?_, h.keys⟩
      obtain ⟨hfin, hrest⟩ := h.recorded id' blockTable hrec'
      refine ⟨hfinish hfin ?_, hrest⟩
      rintro rfl
      rw [hrec] at hrec'
      cases hrec'
  | some dropped =>
      refine ⟨fun id' blockTable hrec' => ?_, fun key block hblock => ?_⟩
      · dsimp only at hrec'
        rw [IdMap.get_erase] at hrec'
        split at hrec'
        next => cases hrec'
        next hne =>
          obtain ⟨hfin, hrest⟩ := h.recorded id' blockTable hrec'
          exact ⟨hfinish hfin (Ne.symm hne), hrest⟩
      · dsimp only at hblock ⊢
        split at hblock
        next => cases hblock
        next hkept =>
          obtain ⟨hlayer, id', blockTable, hrec', hmem⟩ := h.keys key block hblock
          refine ⟨hlayer, id', blockTable, ?_, hmem⟩
          rw [IdMap.get_erase_ne, hrec']
          rintro rfl
          obtain rfl : dropped = blockTable := Option.some.inj (hrec.symm.trans hrec')
          exact hkept ⟨hlayer, hmem⟩

theorem sequencesFinished (h : x.Covered c) (ids : List SeqId) :
    (x.sequencesFinished ids).Covered (c.finish ids) := by
  induction ids generalizing x c with
  | nil =>
      rw [Caller.finish, List.append_nil]
      exact h
  | cons id rest ih =>
      have hrest := ih (h.finishOne id)
      rw [Caller.finish, Caller.finish, List.append_assoc] at hrest
      exact hrest

theorem runCalls (h : x.Covered c) (calls : List ExecutorCall)
    (hc : c.ConformsTo (Caller.Continues blockSize) (runCalls calls x).1) :
    (runCalls calls x).2.Covered ((PagedServing.runCalls calls x).1.foldl Caller.observe c) := by
  induction calls generalizing x c with
  | nil => exact h
  | cons call rest ih =>
      cases call with
      | execute batch => exact ih (h.execute hc.2.1) hc.2.2
      | sequencesFinished ids => exact ih (h.sequencesFinished ids) hc

end Covered

/-! ## Recorded tables -/

theorem executeEntries_recorded_ne (hnodup : ∀ entry ∈ entries, entry.blockTable.Nodup)
    {id : SeqId} (hid : id ∉ entries.map (·.seqId)) :
    (executeEntries entries x).2.seqBlockTables[id]? = x.seqBlockTables[id]? := by
  induction entries generalizing x with
  | nil => rfl
  | cons entry rest ih =>
      rw [List.map_cons, List.mem_cons, not_or] at hid
      have hrest := fun y : CpuReferenceExecutor V =>
        ih (x := y) (fun later hmem => hnodup later (List.mem_cons_of_mem _ hmem)) hid.2
      have htouches := forwardSeq_touches (x.recordTable entry) (hnodup entry List.mem_cons_self)
      have hfirst : ((x.recordTable entry).forwardSeq entry).2.seqBlockTables[id]? =
          x.seqBlockTables[id]? := by
        rw [htouches.seqBlockTables, recordTable_get, if_neg (Ne.symm hid.1)]
      rw [executeEntries]
      split
      next heq =>
        rw [heq] at hfirst
        exact hfirst
      next next x' heq =>
        rw [heq] at hfirst
        have hlast := hrest x'
        split
        next heq' =>
          rw [heq'] at hlast
          exact hlast.trans hfirst
        next heq' =>
          rw [heq'] at hlast
          exact hlast.trans hfirst

/-- After a whole batch the last table of each sequence is recorded. -/
theorem executeEntries_recorded (hnodup : ∀ entry ∈ entries, entry.blockTable.Nodup)
    {rows : List (TokenId × TokenLogprobs)} (hok : (executeEntries entries x).1 = .ok rows)
    (id : SeqId) :
    ((executeEntries entries x).2.seqBlockTables[id]?).getD [] =
      Caller.lastTable ((x.seqBlockTables[id]?).getD [])
        (entries.filter fun entry => entry.seqId = id) := by
  induction entries generalizing x rows with
  | nil => rfl
  | cons entry rest ih =>
      have htouches := forwardSeq_touches (x.recordTable entry) (hnodup entry List.mem_cons_self)
      have hfirst : (((x.recordTable entry).forwardSeq entry).2.seqBlockTables[id]?).getD [] =
          Caller.lastTable ((x.seqBlockTables[id]?).getD [])
            ([entry].filter fun entry => entry.seqId = id) := by
        rw [htouches.seqBlockTables, recordTable_get]
        by_cases heq : entry.seqId = id <;> simp [heq, Caller.lastTable]
      rw [executeEntries] at hok ⊢
      cases hforward : (x.recordTable entry).forwardSeq entry with
      | mk result x' =>
          rw [hforward] at hfirst
          cases result with
          | error e => simp [hforward] at hok
          | ok next =>
              simp only [hforward] at hok ⊢
              cases htail : executeEntries rest x' with
              | mk tail x'' =>
                  cases tail with
                  | error e => simp [htail] at hok
                  | ok tail =>
                      have hanswer : (executeEntries rest x').1 = .ok tail := by rw [htail]
                      have hrest := ih (x := x')
                        (fun later hmem => hnodup later (List.mem_cons_of_mem _ hmem)) hanswer
                      rw [htail] at hrest
                      rw [← List.singleton_append, List.filter_append, Caller.lastTable_append,
                        ← hfirst]
                      exact hrest

theorem execute_recorded {batch : ExecutionBatch}
    (hnodup : ∀ entry ∈ batch.entries, entry.blockTable.Nodup) {output : ExecutionOutput}
    (hok : (x.execute batch).1 = .ok output) (id : SeqId) :
    ((x.execute batch).2.seqBlockTables[id]?).getD [] =
      Caller.lastTable ((x.seqBlockTables[id]?).getD [])
        (batch.entries.filter fun entry => entry.seqId = id) := by
  rcases execute_cases x batch with ⟨hempty, heq⟩ | ⟨e, heq⟩ | ⟨heq, hrows⟩
  · rw [heq, hempty]
    rfl
  · rw [heq] at hok
    cases hok
  · obtain ⟨rows, hrows⟩ := hrows output hok
    rw [heq]
    exact executeEntries_recorded hnodup hrows id

theorem execute_recorded_ne {batch : ExecutionBatch}
    (hnodup : ∀ entry ∈ batch.entries, entry.blockTable.Nodup) {id : SeqId}
    (hid : id ∉ batch.entries.map (·.seqId)) :
    (x.execute batch).2.seqBlockTables[id]? = x.seqBlockTables[id]? := by
  rcases execute_cases x batch with ⟨-, heq⟩ | ⟨e, heq⟩ | ⟨heq, -⟩
  · rw [heq]
  · rw [heq]
  · rw [heq]
    exact executeEntries_recorded_ne hnodup hid

theorem sequencesFinished_recorded_ne {ids : List SeqId} {id : SeqId} (hid : id ∉ ids) :
    (x.sequencesFinished ids).seqBlockTables[id]? = x.seqBlockTables[id]? := by
  induction ids generalizing x with
  | nil => rfl
  | cons first rest ih =>
      rw [List.mem_cons, not_or] at hid
      have hfirst : (x.finishOne first).seqBlockTables[id]? = x.seqBlockTables[id]? := by
        rw [finishOne]
        cases x.seqBlockTables[first]? with
        | none => rfl
        | some blockTable => exact IdMap.get_erase_ne (Ne.symm hid.1)
      exact (ih hid.2).trans hfirst

end CpuReferenceExecutor

end PagedServing
