import PagedServing.Engine.Pipeline
import PagedServing.Library.Autoregressive

/-! # The entries of a batch

A batch that `build_execution_batch` returns is the list of its entries, one for each
scheduled sequence; what a backend has been fed is a function of the entries.
-/

namespace PagedServing

open FixedWidth Autoregressive

/-! ## Entries of a built batch -/

def Sequence.prefillEntry (seq : Sequence) : BatchEntry where
  seqId := seq.seqId
  isPrefill := true
  tokens := seq.request.inputTokens
  positions := List.range seq.request.inputTokens.length
  contextLen := seq.contextLen
  blockTable := seq.getBlockTable

/-- The entry of a decode sequence that feeds `token`. -/
def Sequence.decodeEntry (seq : Sequence) (token : TokenId) : BatchEntry where
  seqId := seq.seqId
  isPrefill := false
  tokens := [token]
  positions := [seq.contextLen - 1]
  contextLen := seq.contextLen
  blockTable := seq.getBlockTable

/-- The columns of the batch agree on where each entry begins and ends. -/
structure ExecutionBatch.Cut (b : ExecutionBatch) : Prop where
  isPrefill : b.isPrefill.length = b.seqIds.length
  seqLens : b.seqLens.length = b.seqIds.length
  contextLens : b.contextLens.length = b.seqIds.length
  blockTables : b.blockTables.length = b.seqIds.length
  tokens : b.inputTokens.length = b.seqLens.sum
  positions : b.positions.length = b.seqLens.sum

/-- No block is listed twice, in one table or in two. -/
def ExecutionBatch.Separate (b : ExecutionBatch) : Prop :=
  (b.entries.flatMap (·.blockTable)).Nodup

theorem entriesFrom_concat {ids : List SeqId} {flags : List Bool} {lens ctxs : List Nat}
    {tables : List (List BlockIdx)} {tokens : List TokenId} {positions : List Nat}
    (hflags : flags.length = ids.length) (hlens : lens.length = ids.length)
    (hctxs : ctxs.length = ids.length) (htables : tables.length = ids.length)
    (htokens : tokens.length = lens.sum) (hpositions : positions.length = lens.sum)
    (entry : BatchEntry) (hlen : entry.positions.length = entry.tokens.length) :
    entriesFrom (ids ++ [entry.seqId]) (flags ++ [entry.isPrefill]) (lens ++ [entry.tokens.length])
        (ctxs ++ [entry.contextLen]) (tables ++ [entry.blockTable]) (tokens ++ entry.tokens)
        (positions ++ entry.positions) =
      entriesFrom ids flags lens ctxs tables tokens positions ++ [entry] := by
  induction ids generalizing flags lens ctxs tables tokens positions with
  | nil =>
    rw [List.length_nil, List.length_eq_zero_iff] at hflags hlens hctxs htables
    subst hflags hlens hctxs htables
    rw [List.sum_nil, List.length_eq_zero_iff] at htokens hpositions
    subst htokens hpositions
    simp only [List.nil_append, entriesFrom, List.take_length, ← hlen]
    rw [hlen, List.take_length]
  | cons id ids ih =>
    obtain ⟨flag, flags, rfl⟩ := List.exists_cons_of_length_eq_add_one hflags
    obtain ⟨len, lens, rfl⟩ := List.exists_cons_of_length_eq_add_one hlens
    obtain ⟨ctx, ctxs, rfl⟩ := List.exists_cons_of_length_eq_add_one hctxs
    obtain ⟨table, tables, rfl⟩ := List.exists_cons_of_length_eq_add_one htables
    rw [List.sum_cons] at htokens hpositions
    simp only [List.length_cons, Nat.add_right_cancel_iff] at hflags hlens hctxs htables
    have hle : len ≤ tokens.length := by omega
    have hle' : len ≤ positions.length := by omega
    simp only [List.cons_append, entriesFrom, List.take_append_of_le_length hle,
      List.take_append_of_le_length hle', List.drop_append_of_le_length hle,
      List.drop_append_of_le_length hle']
    rw [ih hflags hlens hctxs htables (by rw [List.length_drop]; omega)
      (by rw [List.length_drop]; omega)]

namespace ExecutionBatch

/-- One more entry at the end of a batch. -/
structure Extends (b : ExecutionBatch) (entry : BatchEntry) (b' : ExecutionBatch) : Prop where
  cut : b'.Cut
  entries : b'.entries = b.entries ++ [entry]
  seqIds : b'.seqIds = b.seqIds ++ [entry.seqId]

theorem cut_empty : ({} : ExecutionBatch).Cut := ⟨rfl, rfl, rfl, rfl, rfl, rfl⟩

theorem map_asU32_range {n : Nat} (h : n < 2 ^ 32) : (List.range n).map asU32 = List.range n := by
  have hid : ∀ i ∈ List.range n, asU32 i = id i := fun i hi =>
    asU32_of_lt ((List.mem_range.1 hi).trans h)
  rw [List.map_congr_left hid, List.map_id]

theorem addPrefill_extends {b : ExecutionBatch} {seq : Sequence} (hb : b.Cut)
    (hlen : seq.request.inputTokens.length < 2 ^ 32) :
    b.Extends seq.prefillEntry (b.addPrefill seq) := by
  have hpositions : (List.range seq.request.inputTokens.length).map asU32 =
      List.range seq.request.inputTokens.length := map_asU32_range hlen
  refine ⟨⟨?_, ?_, ?_, ?_, ?_, ?_⟩, ?_, rfl⟩
  · simp [addPrefill, hb.isPrefill]
  · simp [addPrefill, hb.seqLens]
  · simp [addPrefill, hb.contextLens]
  · simp [addPrefill, hb.blockTables]
  · simp [addPrefill, hb.tokens, asU32_of_lt hlen]
  · simp [addPrefill, hb.positions, asU32_of_lt hlen]
  · have := entriesFrom_concat hb.isPrefill hb.seqLens hb.contextLens hb.blockTables hb.tokens
      hb.positions seq.prefillEntry (by simp [Sequence.prefillEntry])
    simpa [entries, addPrefill, hpositions, asU32_of_lt hlen, Sequence.prefillEntry] using this

theorem addDecode_extends {b b' : ExecutionBatch} {seq : Sequence} (hb : b.Cut)
    (h : b.addDecode seq = .ok b') :
    ∃ token, seq.decodeInputToken = some token ∧ 1 ≤ seq.contextLen ∧
      b.Extends (seq.decodeEntry token) b' := by
  rw [addDecode] at h
  cases ht : seq.decodeInputToken with
  | none => simp [ht] at h
  | some token =>
      cases hp : seq.decodePosition with
      | none => simp [ht, hp] at h
      | some position =>
          simp only [ht, hp, Except.ok.injEq] at h
          subst h
          simp only [Sequence.decodePosition, Option.ite_none_right_eq_some,
            Option.some.injEq] at hp
          obtain ⟨hctx, rfl⟩ := hp
          refine ⟨token, rfl, hctx, ⟨?_, ?_, ?_, ?_, ?_, ?_⟩, ?_, rfl⟩
          · simp [hb.isPrefill]
          · simp [hb.seqLens]
          · simp [hb.contextLens]
          · simp [hb.blockTables]
          · simp [hb.tokens]
          · simp [hb.positions]
          · have := entriesFrom_concat hb.isPrefill hb.seqLens hb.contextLens hb.blockTables
              hb.tokens hb.positions (seq.decodeEntry token) rfl
            simpa [entries, Sequence.decodeEntry] using this

end ExecutionBatch

/-- The entry of a decode sequence in a batch, which feeds its last token. -/
def Sequence.feedEntry (seq : Sequence) : BatchEntry :=
  seq.decodeEntry (seq.decodeInputToken.getD 0)

def SchedulerOutput.entries (o : SchedulerOutput) : List BatchEntry :=
  o.prefillSequences.map Sequence.prefillEntry ++ o.decodeSequences.map Sequence.feedEntry

theorem SchedulerOutput.entries_seqIds (o : SchedulerOutput) :
    o.entries.map (·.seqId) = o.seqIds := by
  simp [entries, seqIds, Sequence.prefillEntry, Sequence.feedEntry, Sequence.decodeEntry,
    Function.comp_def]

/-- What a successful `build_execution_batch` says. -/
structure SchedulerOutput.Builds (o : SchedulerOutput) (b : ExecutionBatch) : Prop where
  cut : b.Cut
  entries : b.entries = o.entries
  seqIds : b.seqIds = o.seqIds
  fed : ∀ seq ∈ o.decodeSequences,
    (∃ token, seq.decodeInputToken = some token) ∧ 1 ≤ seq.contextLen

private theorem foldl_addPrefill {seqs : List Sequence} {b : ExecutionBatch} (hb : b.Cut)
    (hlen : ∀ seq ∈ seqs, seq.request.inputTokens.length < 2 ^ 32) :
    (seqs.foldl ExecutionBatch.addPrefill b).Cut ∧
      (seqs.foldl ExecutionBatch.addPrefill b).entries =
        b.entries ++ seqs.map Sequence.prefillEntry ∧
      (seqs.foldl ExecutionBatch.addPrefill b).seqIds = b.seqIds ++ seqs.map (·.seqId) := by
  induction seqs generalizing b with
  | nil => simp [hb]
  | cons seq rest ih =>
    have hone := ExecutionBatch.addPrefill_extends hb (hlen seq (by simp))
    obtain ⟨hcut, hentries, hids⟩ := ih hone.cut fun a ha => hlen a (by simp [ha])
    refine ⟨hcut, ?_, ?_⟩
    · simp [hentries, hone.entries]
    · simp [hids, hone.seqIds, Sequence.prefillEntry]

private theorem foldlM_addDecode {seqs : List Sequence} {b b' : ExecutionBatch} (hb : b.Cut)
    (h : seqs.foldlM ExecutionBatch.addDecode b = .ok b') :
    b'.Cut ∧ b'.entries = b.entries ++ seqs.map Sequence.feedEntry ∧
      b'.seqIds = b.seqIds ++ seqs.map (·.seqId) ∧
      ∀ seq ∈ seqs, (∃ token, seq.decodeInputToken = some token) ∧ 1 ≤ seq.contextLen := by
  induction seqs generalizing b with
  | nil =>
    simp only [List.foldlM_nil, pure, Except.pure, Except.ok.injEq] at h
    subst h
    simp [hb]
  | cons seq rest ih =>
    rw [List.foldlM_cons] at h
    cases hone : b.addDecode seq with
    | error e => simp [hone, bind, Except.bind] at h
    | ok b₁ =>
        simp only [hone, bind, Except.bind] at h
        obtain ⟨token, htoken, hctx, hext⟩ := ExecutionBatch.addDecode_extends hb hone
        obtain ⟨hcut, hentries, hids, hfed⟩ := ih hext.cut h
        refine ⟨hcut, ?_, ?_, ?_⟩
        · simp [hentries, hext.entries, Sequence.feedEntry, htoken]
        · simp [hids, hext.seqIds, Sequence.decodeEntry]
        · intro a ha
          rcases List.mem_cons.1 ha with rfl | ha
          · exact ⟨⟨token, htoken⟩, hctx⟩
          · exact hfed a ha

theorem buildExecutionBatch_builds {o : SchedulerOutput} {b : ExecutionBatch}
    (hlen : ∀ seq ∈ o.prefillSequences, seq.request.inputTokens.length < 2 ^ 32)
    (h : buildExecutionBatch o = .ok b) : o.Builds b := by
  obtain ⟨hcut, hentries, hids⟩ := foldl_addPrefill ExecutionBatch.cut_empty hlen
  obtain ⟨hcut', hentries', hids', hfed⟩ := foldlM_addDecode hcut h
  refine ⟨hcut', ?_, ?_, hfed⟩
  · rw [hentries', hentries, SchedulerOutput.entries]
    rfl
  · rw [hids', hids, SchedulerOutput.seqIds, List.map_append]
    rfl

/-! ## The shape check -/

theorem entriesFrom_nonempty {ids : List SeqId} {flags : List Bool} {lens ctxs : List Nat}
    {tables : List (List BlockIdx)} {tokens : List TokenId} {positions : List Nat}
    (hlens : lens.length = ids.length) (htables : tables.length = ids.length)
    (htokens : tokens.length = lens.sum) (h : validateRows ids lens tables = .ok ()) :
    ∀ entry ∈ entriesFrom ids flags lens ctxs tables tokens positions,
      entry.tokens ≠ [] ∧ entry.blockTable ≠ [] := by
  induction ids generalizing flags lens ctxs tables tokens positions with
  | nil => simp [entriesFrom]
  | cons id ids ih =>
    obtain ⟨len, lens, rfl⟩ := List.exists_cons_of_length_eq_add_one hlens
    obtain ⟨table, tables, rfl⟩ := List.exists_cons_of_length_eq_add_one htables
    rw [List.sum_cons] at htokens
    simp only [List.length_cons, Nat.add_right_cancel_iff] at hlens htables
    simp only [validateRows, invalidBatch] at h
    split_ifs at h with hlen htable
    cases flags with
    | nil => simp [entriesFrom]
    | cons flag flags =>
        cases ctxs with
        | nil => simp [entriesFrom]
        | cons ctx ctxs =>
            intro entry hentry
            rw [entriesFrom] at hentry
            rcases List.mem_cons.1 hentry with rfl | hentry
            · refine ⟨?_, by simpa using htable⟩
              rw [Ne, List.take_eq_nil_iff, not_or]
              exact ⟨hlen, List.ne_nil_of_length_pos (by omega)⟩
            · exact ih hlens htables (by rw [List.length_drop]; omega) h entry hentry

/-- A batch of the right shape feeds each of its sequences something. -/
theorem ExecutionBatch.Cut.entry_nonempty {b : ExecutionBatch} (hb : b.Cut)
    (h : validateBatchShape b = .ok ()) :
    ∀ entry ∈ b.entries, entry.tokens ≠ [] ∧ entry.blockTable ≠ [] := by
  refine entriesFrom_nonempty hb.seqLens hb.blockTables hb.tokens ?_
  simp only [validateBatchShape, invalidBatch] at h
  split_ifs at h with hempty
  · rw [isEmpty, List.isEmpty_iff] at hempty
    rw [hempty]
    rfl
  · exact h

/-! ## What a backend has been fed -/

/-- The tokens fed for each sequence, by position. -/
abbrev Fed := SeqId → List TokenId

def Fed.feedEntry (fed : Fed) (entry : BatchEntry) : Fed :=
  Function.update fed entry.seqId
    (writeAll (fed entry.seqId) (entry.tokens.zip entry.positions))

def Fed.feed (fed : Fed) (b : ExecutionBatch) : Fed := b.entries.foldl Fed.feedEntry fed

private theorem foldl_feed_of_not_mem {entries : List BatchEntry} (fed : Fed) {id : SeqId}
    (h : id ∉ entries.map (·.seqId)) : entries.foldl Fed.feedEntry fed id = fed id := by
  induction entries generalizing fed with
  | nil => rfl
  | cons entry rest ih =>
    rw [List.map_cons, List.mem_cons, not_or] at h
    rw [List.foldl_cons, ih _ h.2, Fed.feedEntry, Function.update_of_ne h.1]

private theorem foldl_feed_of_mem {entries : List BatchEntry} (fed : Fed) {entry : BatchEntry}
    (hnodup : (entries.map (·.seqId)).Nodup) (h : entry ∈ entries) :
    entries.foldl Fed.feedEntry fed entry.seqId =
      writeAll (fed entry.seqId) (entry.tokens.zip entry.positions) := by
  induction entries generalizing fed with
  | nil => simp at h
  | cons first rest ih =>
    obtain ⟨hfirst, hrest⟩ := List.nodup_cons.1 hnodup
    rw [List.foldl_cons]
    rcases List.mem_cons.1 h with rfl | h
    · rw [foldl_feed_of_not_mem _ hfirst, Fed.feedEntry, Function.update_self]
    · have hmem : entry.seqId ∈ rest.map (·.seqId) := List.mem_map.2 ⟨entry, h, rfl⟩
      have hne : entry.seqId ≠ first.seqId := by
        intro heq
        rw [heq] at hmem
        exact hfirst hmem
      rw [ih _ hrest h, Fed.feedEntry, Function.update_of_ne hne]

namespace SchedulerOutput.Builds

variable {o : SchedulerOutput} {b : ExecutionBatch}

theorem entries_seqIds (h : o.Builds b) : b.entries.map (·.seqId) = o.seqIds := by
  rw [h.entries, o.entries_seqIds]

theorem feed_of_not_mem (h : o.Builds b) (fed : Fed) {id : SeqId} (hid : id ∉ o.seqIds) :
    fed.feed b id = fed id :=
  foldl_feed_of_not_mem fed (h.entries_seqIds ▸ hid)

/-- A prefill feeds the whole prompt from position zero. -/
theorem feed_prefill (h : o.Builds b) (hnodup : o.seqIds.Nodup) (fed : Fed) {seq : Sequence}
    (hseq : seq ∈ o.prefillSequences) (hne : seq.request.inputTokens ≠ []) :
    fed.feed b seq.seqId = seq.request.inputTokens := by
  have hmem : seq.prefillEntry ∈ b.entries := by
    rw [h.entries]
    exact List.mem_append_left _ (List.mem_map_of_mem hseq)
  have hfed := foldl_feed_of_mem fed (h.entries_seqIds ▸ hnodup) hmem
  refine hfed.trans ?_
  have hwrite := writeAll_range' (Nat.zero_le (fed seq.seqId).length) hne
  rw [← List.range_eq_range'] at hwrite
  exact hwrite

/-- A decode step feeds one token at the position before its context length. -/
theorem feed_decode (h : o.Builds b) (hnodup : o.seqIds.Nodup) (fed : Fed) {seq : Sequence}
    (hseq : seq ∈ o.decodeSequences) {token : TokenId}
    (htoken : seq.decodeInputToken = some token)
    (hlen : (fed seq.seqId).length = seq.contextLen - 1) :
    fed.feed b seq.seqId = fed seq.seqId ++ [token] := by
  have hmem : seq.feedEntry ∈ b.entries := by
    rw [h.entries]
    exact List.mem_append_right _ (List.mem_map_of_mem hseq)
  have hfed := foldl_feed_of_mem fed (h.entries_seqIds ▸ hnodup) hmem
  refine hfed.trans ?_
  simp [Sequence.feedEntry, Sequence.decodeEntry, htoken, writeAll, writeAt, ← hlen]

end SchedulerOutput.Builds

end PagedServing
