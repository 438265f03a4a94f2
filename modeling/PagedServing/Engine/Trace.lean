import PagedServing.Engine.Refinement

/-! # What the backend is given for one sequence

The entries of a sequence in the successive batches: its prompt first, then one
generated token at a time, over a block table that only grows and always holds the
context.
-/

namespace PagedServing

open Scheduler Relation FixedWidth

/-- The entry with which a request is fed for the `k`-th time, counted from zero. -/
def Request.fedEntry (r : Request) (generated : List TokenId) (blockTable : List BlockIdx) :
    Nat → Option BatchEntry
  | 0 =>
      some
        { seqId := r.id
          isPrefill := true
          tokens := r.inputTokens
          positions := List.range r.inputTokens.length
          contextLen := r.inputTokens.length
          blockTable := blockTable }
  | k + 1 =>
      generated[k]?.map fun token =>
        { seqId := r.id
          isPrefill := false
          tokens := [token]
          positions := [r.inputTokens.length + k]
          contextLen := r.inputTokens.length + (k + 1)
          blockTable := blockTable }

/-- A table with room for the context, and for at most one block's worth of growth. -/
def EngineConfig.TableFits (config : EngineConfig) (contextLen : Nat)
    (blockTable : List BlockIdx) : Prop :=
  config.blocksForTokens contextLen ≤ blockTable.length ∧
    blockTable.length ≤ config.blocksForTokens (contextLen + 1)

structure Request.TraceLaw (r : Request) (config : EngineConfig) (entries : List BatchEntry)
    (generated : List TokenId) : Prop where
  fed : ∀ (k : Nat) (entry : BatchEntry), entries[k]? = some entry →
    r.fedEntry generated entry.blockTable k = some entry
  count : generated.length ≤ entries.length ∧ entries.length ≤ generated.length + 1
  tables : ∀ entry ∈ entries, config.TableFits entry.contextLen entry.blockTable
  extends_prev : entries.Pairwise fun entry entry' => entry.blockTable <+: entry'.blockTable

/-! ## Block tables -/

section Tables

variable {config : EngineConfig} {n : Nat} {blockTable : List BlockIdx}

theorem EngineConfig.TableFits.length_le (hc : config.Valid)
    (h : config.TableFits n blockTable) : blockTable.length ≤ n + 1 :=
  h.2.trans (ceilDiv_le_self hc.blockSize_pos)

theorem EngineConfig.TableFits.ne_nil (hc : config.Valid) (h : config.TableFits n blockTable)
    (hn : 0 < n) : blockTable ≠ [] := by
  have hpos : 0 < config.blocksForTokens n := ceilDiv_pos hc.blockSize_pos hn
  exact List.ne_nil_of_length_pos (hpos.trans_le h.1)

/-- The block of every position below the context length is in the table. -/
theorem EngineConfig.TableFits.lookup (hc : config.Valid) (h : config.TableFits n blockTable)
    {pos : Nat} (hpos : pos < n) : pos / config.blockSize.toNat < blockTable.length :=
  (div_lt_ceilDiv hc.blockSize_pos hpos).trans_le h.1

/-- The table has room for every token of the context. -/
theorem EngineConfig.TableFits.room (hc : config.Valid) (h : config.TableFits n blockTable) :
    n ≤ blockTable.length * config.blockSize.toNat := by
  have hroom := (ceilDiv_le_iff hc.blockSize_pos).1 h.1
  rwa [Nat.mul_comm] at hroom

/-- Growth by at most one block follows a context that grows by one token. -/
theorem Sequence.Grown.tableFits (hc : config.Valid) {seq seq' : Sequence}
    (h : seq.Grown config seq') (hfits : config.TableFits n seq.getBlockTable)
    (hctx : seq.contextLen = n + 1) (hlt : n + 2 < 2 ^ 32) :
    seq.getBlockTable <+: seq'.getBlockTable ∧ config.TableFits (n + 1) seq'.getBlockTable := by
  have hlen : seq.getBlockTable.length = seq.logicalBlocks.length := List.length_map _
  have hbound := hfits.length_le hc
  have hsucc : config.blocksForTokens (n + 1) ≤ config.blocksForTokens n + 1 :=
    ceilDiv_succ_le hc.blockSize_pos
  have hnext := config.blocksForTokens_mono (Nat.le_succ (n + 1))
  have hneeds : seq.NeedsBlock config ↔
      seq.getBlockTable.length < config.blocksForTokens (n + 1 + 1) := by
    rw [NeedsBlock, hctx, saturatingAdd_of_lt (by omega), asU32_of_lt (by omega), hlen]
  rcases h with ⟨henough, rfl⟩ | ⟨hneed, ref, rfl⟩
  · rw [hneeds, Nat.not_lt] at henough
    exact ⟨List.prefix_rfl, hnext.trans henough, hfits.2.trans hnext⟩
  · rw [hneeds] at hneed
    have happend : ({ seq with logicalBlocks := seq.logicalBlocks ++ [ref] } : Sequence).getBlockTable =
        seq.getBlockTable ++ [ref.blockIdx] := List.map_append
    rw [happend, EngineConfig.TableFits, List.length_append, List.length_singleton]
    exact ⟨List.prefix_append _ _, hsucc.trans (Nat.succ_le_succ hfits.1), hneed⟩

end Tables

/-! ## The law along a course -/

namespace Request.TraceLaw

variable {r : Request} {config : EngineConfig} {entries : List BatchEntry}
  {generated : List TokenId}

theorem nil (r : Request) (config : EngineConfig) : r.TraceLaw config [] [] :=
  ⟨by simp, by simp, by simp, .nil⟩

theorem fedEntry_append {blockTable : List BlockIdx} {k : Nat} {entry : BatchEntry}
    (h : r.fedEntry generated blockTable k = some entry) (token : TokenId) :
    r.fedEntry (generated ++ [token]) blockTable k = some entry := by
  cases k with
  | zero => exact h
  | succ k =>
      cases hk : generated[k]? with
      | none => simp [fedEntry, hk] at h
      | some t =>
          rw [fedEntry, hk] at h
          rw [fedEntry, List.getElem?_append_left (List.getElem?_eq_some_iff.1 hk).1, hk]
          exact h

/-- One more entry, when every entry so far has been answered. -/
theorem feed {entry : BatchEntry} (h : r.TraceLaw config entries generated)
    (hcount : entries.length = generated.length)
    (hfed : r.fedEntry generated entry.blockTable entries.length = some entry)
    (hfits : config.TableFits entry.contextLen entry.blockTable)
    (hext : ∀ e ∈ entries, e.blockTable <+: entry.blockTable) :
    r.TraceLaw config (entries ++ [entry]) generated where
  fed k e he := by
    rcases Nat.lt_or_ge k entries.length with hk | hk
    · rw [List.getElem?_append_left hk] at he
      exact h.fed k e he
    · rw [List.getElem?_append_right hk] at he
      obtain ⟨hzero, rfl⟩ : k - entries.length = 0 ∧ entry = e := by
        cases hsub : k - entries.length with
        | zero => simpa [hsub] using he
        | succ j => simp [hsub] at he
      obtain rfl : k = entries.length := by omega
      exact hfed
  count := by
    rw [List.length_append, List.length_singleton]
    omega
  tables e he := by
    rcases List.mem_append.1 he with he | he
    · exact h.tables e he
    · rw [List.mem_singleton.1 he]
      exact hfits
  extends_prev := by
    rw [List.pairwise_append]
    refine ⟨h.extends_prev, List.pairwise_singleton _ _, fun e he e' he' => ?_⟩
    rw [List.mem_singleton.1 he']
    exact hext e he

/-- The last entry is answered. -/
theorem answer (h : r.TraceLaw config entries generated)
    (hcount : entries.length = generated.length + 1) (token : TokenId) :
    r.TraceLaw config entries (generated ++ [token]) where
  fed k e he := fedEntry_append (h.fed k e he) token
  count := by
    rw [List.length_append, List.length_singleton]
    omega
  tables := h.tables
  extends_prev := h.extends_prev

theorem fedEntry_seqId {blockTable : List BlockIdx} {k : Nat} {entry : BatchEntry}
    (h : r.fedEntry generated blockTable k = some entry) : entry.seqId = r.id := by
  cases k with
  | zero => rw [← Option.some.inj h]
  | succ k =>
      obtain ⟨token, -, rfl⟩ := Option.map_eq_some_iff.1 h
      rfl

/-- The positions of an entry lead up to its context length. -/
theorem fedEntry_positions {blockTable : List BlockIdx} {k : Nat} {entry : BatchEntry}
    (h : r.fedEntry generated blockTable k = some entry) :
    entry.contextLen = r.inputTokens.length + k ∧
      entry.tokens.length = (if k = 0 then r.inputTokens.length else 1) ∧
      entry.positions = List.range' (entry.contextLen - entry.tokens.length)
        entry.tokens.length := by
  cases k with
  | zero =>
      rw [← Option.some.inj h]
      simp [List.range_eq_range']
  | succ k =>
      obtain ⟨token, -, rfl⟩ := Option.map_eq_some_iff.1 h
      refine ⟨rfl, rfl, ?_⟩
      simp only [List.length_singleton, List.range'_one, List.cons.injEq, and_true]
      omega

/-- The entries feed the prompt, and of the generated tokens all before the last entry. -/
theorem fed_tokens (h : ∀ (k : Nat) (entry : BatchEntry), entries[k]? = some entry →
      r.fedEntry generated entry.blockTable k = some entry) {k : Nat}
    (hlen : entries.length = k + 1) :
    entries.flatMap (·.tokens) = r.inputTokens ++ generated.take k := by
  induction entries using List.reverseRecOn generalizing k with
  | nil => cases hlen
  | append_singleton entries last ih =>
      obtain rfl : entries.length = k := by simpa using hlen
      have hlast := h entries.length last (by simp)
      rw [List.flatMap_append, List.flatMap_singleton]
      cases hentries : entries.length with
      | zero =>
          rw [hentries] at hlast
          rw [List.eq_nil_of_length_eq_zero hentries, ← Option.some.inj hlast]
          simp
      | succ k =>
          rw [hentries] at hlast
          obtain ⟨token, htoken, heq⟩ := Option.map_eq_some_iff.1 hlast
          have hinit : ∀ (k : Nat) (entry : BatchEntry), entries[k]? = some entry →
              r.fedEntry generated entry.blockTable k = some entry := by
            intro k entry hk
            refine h k entry ?_
            rw [List.getElem?_append_left (List.getElem?_eq_some_iff.1 hk).1, hk]
          rw [ih hinit hentries, ← heq, List.take_add_one, htoken, List.append_assoc]
          rfl

/-- The entries together feed every position below the last context length. -/
theorem fed_length (h : ∀ (k : Nat) (entry : BatchEntry), entries[k]? = some entry →
      r.fedEntry generated entry.blockTable k = some entry) {k : Nat}
    (hlen : entries.length = k + 1) :
    (entries.flatMap (·.tokens)).length = r.inputTokens.length + k := by
  have hk : k ≤ generated.length := by
    cases k with
    | zero => exact Nat.zero_le _
    | succ k =>
        have hlast : entries[k + 1]? = some entries[k + 1] := List.getElem?_eq_getElem (by omega)
        obtain ⟨token, htoken, -⟩ := Option.map_eq_some_iff.1 (h _ _ hlast)
        exact (List.getElem?_eq_some_iff.1 htoken).1
  rw [fed_tokens h hlen, List.length_append, List.length_take, Nat.min_eq_left hk]

/-- The next entry starts where the ones before it ended. -/
theorem next {entry : BatchEntry} (h : r.TraceLaw config entries generated)
    (hfed : r.fedEntry generated entry.blockTable entries.length = some entry) :
    entry.positions = List.range' (entries.flatMap (·.tokens)).length entry.tokens.length ∧
      (entries.flatMap (·.tokens)).length + entry.tokens.length = entry.contextLen := by
  obtain ⟨hctx, htokens, hpositions⟩ := fedEntry_positions hfed
  cases hentries : entries.length with
  | zero =>
      rw [hentries, if_pos rfl] at htokens
      rw [hentries] at hctx
      have hsub : entry.contextLen - entry.tokens.length = 0 := by omega
      rw [hsub] at hpositions
      simp [List.eq_nil_of_length_eq_zero hentries, hpositions, hctx, htokens]
  | succ k =>
      rw [hentries, if_neg k.succ_ne_zero] at htokens
      rw [hentries] at hctx
      have hsub : entry.contextLen - entry.tokens.length = r.inputTokens.length + k := by omega
      rw [hsub] at hpositions
      rw [fed_length h.fed hentries]
      exact ⟨hpositions, by omega⟩

/-- With the next entry all of them have been fed. -/
theorem next_tokens {entry : BatchEntry} (h : r.TraceLaw config entries generated)
    (hcount : entries.length = generated.length)
    (hfed : r.fedEntry generated entry.blockTable entries.length = some entry)
    (hfits : config.TableFits entry.contextLen entry.blockTable)
    (hext : ∀ e ∈ entries, e.blockTable <+: entry.blockTable) :
    entries.flatMap (·.tokens) ++ entry.tokens = r.inputTokens ++ generated := by
  have hlen : (entries ++ [entry]).length = generated.length + 1 := by
    rw [List.length_append, hcount, List.length_singleton]
  have htokens := fed_tokens (h.feed hcount hfed hfits hext).fed hlen
  rwa [List.flatMap_append, List.flatMap_singleton, List.take_length] at htokens

end Request.TraceLaw

namespace Course

section Trace

variable {τ δ : Type} {x : Setting τ} {r : Request} {w w' : Course δ}

/-- The trace law, with what a running sequence brings to its next entry. -/
structure Traced (x : Setting τ) (r : Request) (w : Course δ) : Prop where
  law : r.TraceLaw x.config w.entries w.generated
  waiting : ∀ decoder, w.place = .waiting decoder → w.entries = [] ∧ w.generated = []
  running : ∀ seq decoder, w.place = .running seq decoder →
    w.entries.length = w.generated.length ∧
      (∀ entry ∈ w.entries, entry.blockTable <+: seq.getBlockTable) ∧
      ∃ n, seq.contextLen = n + 1 ∧ x.config.TableFits n seq.getBlockTable

/-- The next entry of a live request carries on its trace. -/
structure Continues (x : Setting τ) (r : Request) (w : Course δ) (seq : Sequence)
    (entry : BatchEntry) : Prop where
  count : w.entries.length = w.generated.length
  fed : r.fedEntry w.generated entry.blockTable w.entries.length = some entry
  contextLen : entry.contextLen = seq.contextLen
  blockTable : entry.blockTable = seq.getBlockTable
  fits : x.config.TableFits entry.contextLen entry.blockTable
  extends_prev : ∀ e ∈ w.entries, e.blockTable <+: entry.blockTable

variable [TokenizerTrait τ δ]

theorem traced_start (x : Setting τ) (r : Request) : (start x : Course δ).Traced x r where
  law := .nil r x.config
  waiting _ _ := ⟨rfl, rfl⟩
  running := by
    rintro seq decoder ⟨⟩

variable [IncrementalDecoder δ] {answer : List TokenId → TokenId → Prop} {seq : Sequence}
  {entry : BatchEntry} {decoder : δ}

theorem continues_of_scheduled (hc : x.config.Valid) (hr : x.Admits r)
    (hw : w.Lawful x answer r) (ht : w.Traced x r)
    (hs : w.place.Scheduled x.config r seq entry decoder) : w.Continues x r seq entry := by
  have hb := between_of_scheduled hr hw.place hs
  have hctx := hb.contextLen hr
  have hlen := hb.length_lt hr
  have hfits := hr.fits
  have hmax := UInt32.toNat_lt x.config.maxModelLen
  cases hplace : w.place with
  | waiting d =>
      rw [hplace] at hs
      obtain ⟨hentries, hgenerated⟩ := ht.waiting d hplace
      rw [hgenerated, List.length_nil, Nat.add_zero] at hctx
      cases hs with
      | @start _ blocks hblocks =>
          have htable : (startedSequence ⟨r.id, r⟩ blocks).prefillEntry.blockTable.length =
              x.config.blocksForTokens r.inputTokens.length := by
            rw [Sequence.prefillEntry, Sequence.getBlockTable, List.length_map, startedSequence,
              List.length_map, hblocks, Request.promptBlocks, asU32_of_lt (by omega)]
          refine ⟨by simp [hentries, hgenerated], ?_, rfl, rfl, ?_, by simp [hentries]⟩
          · rw [hentries, List.length_nil, Request.fedEntry]
            exact congrArg some (by rw [Sequence.prefillEntry, hctx]; rfl)
          · refine ⟨?_, ?_⟩
            · rw [htable]
              exact (congrArg x.config.blocksForTokens hctx).le
            · rw [htable]
              exact x.config.blocksForTokens_mono (hctx.ge.trans (Nat.le_succ _))
  | running old d =>
      rw [hplace] at hs
      obtain ⟨hcount, hinitial, n, hn, hold⟩ := ht.running old d hplace
      have hallowed := hw.place
      rw [hplace] at hallowed
      obtain ⟨hne, hbold⟩ := hallowed
      have hctxold := hbold.contextLen hr
      cases hs with
      | step _ hgrown =>
          obtain ⟨hext, hnew⟩ := hgrown.tableFits hc hold hn (by omega)
          obtain ⟨g, token, hg⟩ := List.eq_nil_or_concat w.generated |>.resolve_left hne
          have htoken : seq.decodeInputToken = some token := by
            rw [Sequence.decodeInputToken, hb.after.outputTokens, hg]
            simp
          have hentry : seq.feedEntry = seq.decodeEntry token := by
            rw [Sequence.feedEntry, htoken]
            rfl
          have hseq : seq.contextLen = n + 1 := by omega
          refine ⟨hcount, ?_, rfl, rfl, ?_, fun e he => (hinitial e he).trans hext⟩
          · rw [hentry, hcount, hg, List.concat_eq_append, List.length_append,
              List.length_singleton, Request.fedEntry]
            rw [hg, List.concat_eq_append, List.length_append, List.length_singleton] at hctx
            simp only [List.getElem?_concat_length, Option.map_some, Sequence.decodeEntry, hctx,
              hb.seqId, Nat.add_sub_cancel, ← Nat.add_assoc]
          · rw [Sequence.feedEntry, Sequence.decodeEntry, hseq]
            exact hnew
  | ended _ _ =>
      rw [hplace] at hs
      cases hs
  | reported _ =>
      rw [hplace] at hs
      cases hs

theorem Step.traced (hc : x.config.Valid) (hr : x.Admits r) (hw : w.Lawful x answer r)
    (ht : w.Traced x r) (h : Step x answer r w w') : w'.Traced x r := by
  cases h with
  | abort reason h =>
      exact ⟨ht.law, by rintro _ ⟨⟩, by rintro _ _ ⟨⟩⟩
  | fail reason h =>
      have hcont := continues_of_scheduled hc hr hw ht h
      exact ⟨ht.law.feed hcont.count hcont.fed hcont.fits hcont.extends_prev, by rintro _ ⟨⟩,
        by rintro _ _ ⟨⟩⟩
  | @serve seq entry decoder row h ha =>
      have hcont := continues_of_scheduled hc hr hw ht h
      have hlaw := ht.law.feed hcont.count hcont.fed hcont.fits hcont.extends_prev
      have hcount : (w.entries ++ [entry]).length = w.generated.length + 1 := by
        rw [List.length_append, List.length_singleton, hcont.count]
      have hlawful := Step.lawful hr hw (.serve row h ha)
      refine ⟨hlaw.answer hcount row.token, ?_, ?_⟩
      · intro d hplace
        have hallowed := hlawful.place
        rw [hplace] at hallowed
        exact absurd hallowed.1 (by simp)
      · intro seq' d hplace
        obtain rfl := Setting.settle_running hplace
        refine ⟨by simp [hcount], ?_, entry.contextLen, ?_, ?_⟩
        · intro e he
          rcases List.mem_append.1 he with he | he
          · exact (hcont.extends_prev e he).trans (hcont.blockTable ▸ List.prefix_rfl)
          · rw [List.mem_singleton.1 he, hcont.blockTable]
            exact List.prefix_rfl
        · have hallowed := hlawful.place
          rw [hplace] at hallowed
          have hnew := hallowed.2.contextLen hr
          have hold := (between_of_scheduled hr hw.place h).contextLen hr
          rw [List.length_append, List.length_singleton] at hnew
          rw [hnew, hcont.contextLen, hold, Nat.add_assoc]
        · have hfits := hcont.fits
          rw [hcont.blockTable] at hfits
          exact hfits
  | report h =>
      exact ⟨ht.law, by rintro _ ⟨⟩, by rintro _ _ ⟨⟩⟩

theorem Steps.traced (hc : x.config.Valid) (hr : x.Admits r) (hw : w.Lawful x answer r)
    (ht : w.Traced x r) (h : Steps x answer r w w') : w'.Traced x r := by
  induction h with
  | refl => exact ht
  | tail hsteps hstep ih => exact hstep.traced hc hr (Steps.lawful hr hw hsteps) ih

end Trace

end Course

/-! ## Sessions -/

namespace Session

variable {σ τ δ : Type} [IncrementalDecoder δ] [TokenizerTrait τ δ] {x : Setting τ}
  {answer : List TokenId → TokenId → Prop} {R : σ → Fed → Prop} {s : Session σ τ δ}

theorem Inv.traced (hi : s.Inv answer R x) {r : Request} (hr : r ∈ s.admitted) :
    ∃ w, w.Lawful x answer r ∧ w.Traced x r ∧ s.Tells r w := by
  obtain ⟨fed, -, hall⟩ := hi.courses
  obtain ⟨w, hsteps, ht, -⟩ := hall r hr
  have hadmits := (hi.admits r hr).1
  have hstart := Course.lawful_start x answer r
  exact ⟨w, hsteps.lawful hadmits hstart,
    hsteps.traced hi.valid hadmits hstart (Course.traced_start x r), ht⟩

/-- What is scheduled carries on the trace of an admitted request. -/
theorem Inv.listed_continues (hi : s.Inv answer R x) {seq : Sequence}
    (hseq : seq ∈ s.engine.output.prefillSequences ++ s.engine.output.decodeSequences) :
    ∃ r ∈ s.admitted, ∃ w entry d, w.Lawful x answer r ∧ s.Tells r w ∧
      w.place.Scheduled x.config r seq entry d ∧ w.Continues x r seq entry ∧
        s.engine.output.Lists seq entry := by
  obtain ⟨r, hr, w, entry, d, hsteps, ht, -, hsched, hlists⟩ := hi.listed_steps hseq
  have hadmits := (hi.admits r hr).1
  have hstart := Course.lawful_start x answer r
  have hw := Course.Steps.lawful hadmits hstart hsteps
  have htraced := Course.Steps.traced hi.valid hadmits hstart (Course.traced_start x r) hsteps
  exact ⟨r, hr, w, entry, d, hw, ht, hsched,
    Course.continues_of_scheduled hi.valid hadmits hw htraced hsched, hlists⟩

/-- What the log of backend calls holds for every sequence and every batch. -/
structure Traces (s : Session σ τ δ) (config : EngineConfig) : Prop where
  law : ∀ r ∈ s.admitted, r.TraceLaw config (entriesOf s.calls r.id) (s.generated r.id)
  lookup : ∀ r ∈ s.admitted, ∀ entry ∈ entriesOf s.calls r.id, ∀ pos ∈ entry.positions,
    pos / config.blockSize.toNat < entry.blockTable.length
  strangers : ∀ id : SeqId, id ∉ s.admitted.map (·.id) → entriesOf s.calls id = []
  separate : ∀ b ∈ batchesOf s.calls, (b.entries.flatMap (·.blockTable)).Nodup

theorem Inv.traces (hi : s.Inv answer R x) : s.Traces x.config := by
  have hlaw : ∀ r ∈ s.admitted,
      r.TraceLaw x.config (entriesOf s.calls r.id) (s.generated r.id) := by
    intro r hr
    obtain ⟨w, -, htraced, htells⟩ := hi.traced hr
    rw [← htells.entries, generated, ← htells.generated]
    exact htraced.law
  refine ⟨hlaw, fun r hr entry hentry pos hpos => ?_, fun id hid => (hi.strangers id hid).2.1,
    hi.batches⟩
  have hfits := (hlaw r hr).tables entry hentry
  refine hfits.lookup hi.valid ?_
  obtain ⟨k, hk⟩ := List.mem_iff_getElem?.1 hentry
  have hfed := (hlaw r hr).fed k entry hk
  cases k with
  | zero =>
      rw [← Option.some.inj hfed] at hpos ⊢
      exact List.mem_range.1 hpos
  | succ k =>
      obtain ⟨token, -, hentry⟩ := Option.map_eq_some_iff.1 hfed
      rw [← hentry] at hpos ⊢
      rw [List.mem_singleton.1 hpos]
      exact Nat.lt_succ_self _

variable [GPUExecutorTrait σ]

theorem traces_of_reachable {config : EngineConfig} {tokenizer : τ} {gpuExecutor : σ}
    (h : s.Reachable config tokenizer gpuExecutor) : s.Traces config := h.inv_any.1.traces

theorem traces_of_reachable_small : smallSession.Traces smallConfig :=
  traces_of_reachable smallSession_reachable

end Session

end PagedServing
