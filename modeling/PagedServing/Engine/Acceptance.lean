import PagedServing.Engine.InFlight
import PagedServing.Engine.Trace

/-! # Batches that pass the shape check

One ill-formed sequence fails a whole batch. The only way into a batch for such a
sequence is a prompt without tokens.
-/

namespace PagedServing

open Scheduler FixedWidth

/-! ## The shape check, from the entries -/

theorem validateRows_of_entries {ids : List SeqId} {flags : List Bool} {lens ctxs : List Nat}
    {tables : List (List BlockIdx)} {tokens : List TokenId} {positions : List Nat}
    (hflags : flags.length = ids.length) (hlens : lens.length = ids.length)
    (hctxs : ctxs.length = ids.length) (htables : tables.length = ids.length)
    (h : ∀ entry ∈ entriesFrom ids flags lens ctxs tables tokens positions,
      entry.tokens ≠ [] ∧ entry.blockTable ≠ []) : validateRows ids lens tables = .ok () := by
  induction ids generalizing flags lens ctxs tables tokens positions with
  | nil => rfl
  | cons id ids ih =>
    obtain ⟨flag, flags, rfl⟩ := List.exists_cons_of_length_eq_add_one hflags
    obtain ⟨len, lens, rfl⟩ := List.exists_cons_of_length_eq_add_one hlens
    obtain ⟨ctx, ctxs, rfl⟩ := List.exists_cons_of_length_eq_add_one hctxs
    obtain ⟨table, tables, rfl⟩ := List.exists_cons_of_length_eq_add_one htables
    simp only [List.length_cons, Nat.add_right_cancel_iff] at hflags hlens hctxs htables
    rw [entriesFrom] at h
    obtain ⟨htokens, htable⟩ := h _ List.mem_cons_self
    have hlen : len ≠ 0 := by
      rintro rfl
      simp at htokens
    rw [validateRows, if_neg hlen, if_neg (by simpa using htable)]
    exact ih hflags hlens hctxs htables fun entry he => h entry (List.mem_cons_of_mem _ he)

theorem entriesFrom_sum {ids : List SeqId} {flags : List Bool} {lens ctxs : List Nat}
    {tables : List (List BlockIdx)} {tokens : List TokenId} {positions : List Nat}
    (hflags : flags.length = ids.length) (hlens : lens.length = ids.length)
    (hctxs : ctxs.length = ids.length) (htables : tables.length = ids.length)
    (htokens : tokens.length = lens.sum) :
    ((entriesFrom ids flags lens ctxs tables tokens positions).map (·.tokens.length)).sum =
      lens.sum := by
  induction ids generalizing flags lens ctxs tables tokens positions with
  | nil =>
    rw [List.length_nil, List.length_eq_zero_iff] at hlens
    rw [hlens]
    rfl
  | cons id ids ih =>
    obtain ⟨flag, flags, rfl⟩ := List.exists_cons_of_length_eq_add_one hflags
    obtain ⟨len, lens, rfl⟩ := List.exists_cons_of_length_eq_add_one hlens
    obtain ⟨ctx, ctxs, rfl⟩ := List.exists_cons_of_length_eq_add_one hctxs
    obtain ⟨table, tables, rfl⟩ := List.exists_cons_of_length_eq_add_one htables
    simp only [List.length_cons, Nat.add_right_cancel_iff] at hflags hlens hctxs htables
    rw [List.sum_cons] at htokens
    rw [entriesFrom, List.map_cons, List.sum_cons, List.sum_cons,
      ih hflags hlens hctxs htables (by rw [List.length_drop]; omega), List.length_take]
    omega

/-- A batch of nonempty entries that holds fewer than `2 ^ 32` tokens is accepted. -/
theorem ExecutionBatch.Cut.accepted {b : ExecutionBatch} (hb : b.Cut)
    (hentries : ∀ entry ∈ b.entries, entry.tokens ≠ [] ∧ entry.blockTable ≠ [])
    (htotal : (b.entries.map (·.tokens.length)).sum < 2 ^ 32) :
    validateBatchShape b = .ok () := by
  have hsum : (b.entries.map (·.tokens.length)).sum = b.seqLens.sum :=
    entriesFrom_sum hb.isPrefill hb.seqLens hb.contextLens hb.blockTables hb.tokens
  have hrows := validateRows_of_entries hb.isPrefill hb.seqLens hb.contextLens hb.blockTables
    hentries
  rw [hsum] at htotal
  rw [validateBatchShape]
  split
  · rfl
  · simp [hb.tokens, hb.positions, hb.seqLens, hb.isPrefill, hb.contextLens, hb.blockTables,
      asU32_of_lt htotal, hrows]

/-- The entries of a schedule hold the tokens that its counter counts. -/
theorem SchedulerOutput.entries_feeds {o : SchedulerOutput}
    (hlen : ∀ seq ∈ o.prefillSequences, seq.request.inputTokens.length < 2 ^ 32) :
    (o.entries.map (·.tokens.length)).sum = o.feeds := by
  have hprefill : (o.prefillSequences.map fun seq => seq.prefillEntry.tokens.length) =
      o.prefillSequences.map fun seq => asU32 seq.request.inputTokens.length :=
    List.map_congr_left fun seq hseq => (asU32_of_lt (hlen seq hseq)).symm
  have hdecode : (o.decodeSequences.map fun seq => seq.feedEntry.tokens.length).sum =
      o.decodeSequences.length := by
    rw [List.map_congr_left fun seq _ => (rfl : seq.feedEntry.tokens.length = 1)]
    simp
  rw [SchedulerOutput.entries, List.map_append, List.sum_append, List.map_map, List.map_map,
    SchedulerOutput.feeds]
  exact congrArg₂ (· + ·) (congrArg List.sum hprefill) hdecode

/-- A built batch holds as many tokens as its lengths and its counter say. -/
theorem SchedulerOutput.Builds.tokens_length {o : SchedulerOutput} {b : ExecutionBatch}
    (h : o.Builds b) (hlen : ∀ seq ∈ o.prefillSequences, seq.request.inputTokens.length < 2 ^ 32) :
    b.inputTokens.length = o.feeds ∧ b.seqLens.sum = o.feeds := by
  have hsum : (b.entries.map (·.tokens.length)).sum = b.seqLens.sum :=
    entriesFrom_sum h.cut.isPrefill h.cut.seqLens h.cut.contextLens h.cut.blockTables h.cut.tokens
  rw [h.entries, SchedulerOutput.entries_feeds hlen] at hsum
  exact ⟨h.cut.tokens.trans hsum.symm, hsum.symm⟩

theorem exists_buildExecutionBatch {o : SchedulerOutput}
    (h : ∀ seq ∈ o.decodeSequences,
      (∃ token, seq.decodeInputToken = some token) ∧ 1 ≤ seq.contextLen) :
    ∃ b, buildExecutionBatch o = .ok b := by
  have hfold (seqs : List Sequence) (b : ExecutionBatch)
      (h : ∀ seq ∈ seqs, (∃ token, seq.decodeInputToken = some token) ∧ 1 ≤ seq.contextLen) :
      ∃ b', seqs.foldlM ExecutionBatch.addDecode b = .ok b' := by
    induction seqs generalizing b with
    | nil => exact ⟨b, rfl⟩
    | cons seq rest ih =>
      obtain ⟨⟨token, htoken⟩, hctx⟩ := h seq List.mem_cons_self
      have hone : ∃ b', b.addDecode seq = .ok b' := by
        rw [ExecutionBatch.addDecode, htoken, Sequence.decodePosition, if_pos hctx]
        exact ⟨_, rfl⟩
      obtain ⟨b₁, hb₁⟩ := hone
      rw [List.foldlM_cons, hb₁]
      exact ih b₁ fun a ha => h a (List.mem_cons_of_mem _ ha)
  exact hfold _ _ h

theorem Request.contextLen_pos_of_fed {r : Request} {generated : List TokenId}
    {blockTable : List BlockIdx} {k : Nat} {entry : BatchEntry}
    (h : r.fedEntry generated blockTable k = some entry) (hne : entry.tokens ≠ []) :
    0 < entry.contextLen := by
  cases k with
  | zero =>
      obtain rfl := Option.some.inj h
      exact List.length_pos_of_ne_nil hne
  | succ k =>
      obtain ⟨token, -, rfl⟩ := Option.map_eq_some_iff.1 h
      exact Nat.lt_of_lt_of_le (Nat.succ_pos k) (Nat.le_add_left _ _)

/-! ## The batch of the next step -/

namespace InferenceEngine

variable {σ τ δ : Type} [GPUExecutorTrait σ]

/-- The batch of the next step is accepted, and an answer to it that keeps the contract
does not fail it. -/
structure Accepts (e : InferenceEngine σ τ δ) : Prop where
  shape : ∀ b, buildExecutionBatch e.output = .ok b → validateBatchShape b = .ok ()
  builds : ∃ b, buildExecutionBatch e.output = .ok b
  answered : e.output.isEmpty = false → ∀ b answer gpuExecutor,
    buildExecutionBatch e.output = .ok b →
    GPUExecutorTrait.execute e.executionPipeline.gpuExecutor b = (.ok answer, gpuExecutor) →
    validateExecutionOutput b answer = .ok () →
    (e.executionPipeline.execute e.output).1 = .ok answer

theorem accepts_of_shape {e : InferenceEngine σ τ δ} {b : ExecutionBatch}
    (hbuild : buildExecutionBatch e.output = .ok b) (hshape : validateBatchShape b = .ok ()) :
    e.Accepts := by
  refine ⟨?_, ⟨b, hbuild⟩, ?_⟩
  · intro b' hb'
    rw [hbuild] at hb'
    obtain rfl := Except.ok.inj hb'
    exact hshape
  · intro hne b' answer gpuExecutor hb' hrun hvalid
    rw [hbuild] at hb'
    obtain rfl := Except.ok.inj hb'
    have hattempt : (e.executionPipeline.attempt b).1 = .ok answer := by
      rw [BatchExecutionPipeline.attempt, hrun]
    rw [BatchExecutionPipeline.execute, if_neg (by simp [hne]), hbuild]
    simp only [hshape]
    rcases hfirst : e.executionPipeline.attempt b with ⟨reply, pipeline⟩
    rw [hfirst] at hattempt
    obtain rfl : reply = .ok answer := hattempt
    cases e.executionPipeline.maxRetryAttempts.toNat with
    | zero => simp [BatchExecutionPipeline.executeLoop, hfirst, BatchExecutionPipeline.accept, hvalid]
    | succ n =>
        simp [BatchExecutionPipeline.executeLoop, hfirst, BatchExecutionPipeline.accept, hvalid]

end InferenceEngine

namespace Session

variable {σ τ δ : Type} [IncrementalDecoder δ] [TokenizerTrait τ δ] {x : Setting τ}
  {answer : List TokenId → TokenId → Prop} {R : σ → Fed → Prop} {s : Session σ τ δ}

/-- Every decode sequence has a token to be fed. -/
theorem Inv.fed (hi : s.Inv answer R x) :
    ∀ seq ∈ s.engine.output.decodeSequences,
      (∃ token, seq.decodeInputToken = some token) ∧ 1 ≤ seq.contextLen := by
  intro seq hseq
  obtain ⟨r, hr, w, entry, d, hw, -, hsched, hcont, hlists⟩ :=
    hi.listed_continues (List.mem_append_right _ hseq)
  have hadmits := (hi.admits r hr).1
  have hb := Course.between_of_scheduled hadmits hw.place hsched
  have hentry := hlists.of_decode (InferenceEngine.output_nodup hi.sound) hseq
  have hlen : 0 < w.generated.length := by
    by_contra hzero
    have hfed := hcont.fed
    rw [hcont.count, Nat.eq_zero_of_not_pos hzero, hentry] at hfed
    have hflag : true = false := congrArg BatchEntry.isPrefill (Option.some.inj hfed)
    cases hflag
  refine ⟨?_, by rw [hb.contextLen hadmits]; omega⟩
  rw [Sequence.decodeInputToken, hb.after.outputTokens,
    List.getLast?_eq_some_getLast (List.ne_nil_of_length_pos hlen)]
  exact ⟨_, rfl⟩

/-- An entry of the next batch is not empty, unless it is a prompt without tokens. -/
theorem Inv.entries_ne_nil (hi : s.Inv answer R x)
    (hprompts : ∀ p ∈ s.engine.scheduler.pendingQueue, p.request.inputTokens ≠ []) :
    ∀ entry ∈ s.engine.output.entries, entry.tokens ≠ [] ∧ entry.blockTable ≠ [] := by
  intro entry hentry
  obtain ⟨seq, hseq, hlists⟩ := SchedulerOutput.exists_lists hentry
  obtain ⟨r, hr, w, entry', d, -, -, -, hcont, hlists'⟩ := hi.listed_continues hseq
  obtain rfl := hlists'.unique (InferenceEngine.output_nodup hi.sound) hlists
  have htokens : entry'.tokens ≠ [] := by
    rcases hlists with ⟨hprefill, rfl⟩ | ⟨-, rfl⟩
    · obtain ⟨p, hp, blocks, rfl⟩ := started_of_output hi.sound.wf hi.idle hprefill
      exact hprompts p hp
    · exact List.cons_ne_nil _ _
  exact ⟨htokens, hcont.fits.ne_nil hi.valid (Request.contextLen_pos_of_fed hcont.fed htokens)⟩

theorem Inv.tokens_eq_feeds (hi : s.Inv answer R x) :
    (s.engine.output.entries.map (·.tokens.length)).sum = s.engine.output.feeds :=
  SchedulerOutput.entries_feeds hi.prompts

variable [GPUExecutorTrait σ]

/-- The batches of a run are accepted as long as no prompt without tokens waits. -/
theorem accepts_of_reachable {config : EngineConfig} {tokenizer : τ} {gpuExecutor : σ}
    (h : s.Reachable config tokenizer gpuExecutor)
    (hprompts : ∀ p ∈ s.engine.scheduler.pendingQueue, p.request.inputTokens ≠ [])
    (htotal : config.maxTotalTokens.toNat < u32Max ∨ s.engine.scheduler.backlog < 2 ^ 32) :
    s.engine.Accepts := by
  have hi := h.inv_any.1
  obtain ⟨b, hb⟩ := exists_buildExecutionBatch hi.fed
  have hbuilds := buildExecutionBatch_builds hi.prompts hb
  refine InferenceEngine.accepts_of_shape hb (hbuilds.cut.accepted ?_ ?_)
  · rw [hbuilds.entries]
    exact hi.entries_ne_nil hprompts
  · rw [hbuilds.entries, hi.tokens_eq_feeds]
    rcases htotal with hmax | hbacklog
    · have hbudget := (schedule_withinBudget hi.sound.wf).tokens
      rw [hi.config] at hbudget
      have hfeeds : min s.engine.output.feeds u32Max ≤ config.maxTotalTokens.toNat := hbudget
      rw [u32Max] at hmax hfeeds
      omega
    · exact (feeds_le_backlog hi.sound.wf hi.idle).trans_lt hbacklog

theorem accepts_of_reachable_small :
    ((new smallConfig SimpleTokenizer.new ⟨fun _ => []⟩ :
      Session (FunctionBackend stopAtFour) SimpleTokenizer SimpleDecoder).run
        (smallOps.take 1)).engine.Accepts :=
  accepts_of_reachable ⟨by decide +kernel, _, rfl⟩ (by decide +kernel) (.inl (by decide +kernel))

/-! ## A prompt without tokens -/

/-- A library whose encoding of a blank text is empty. -/
def blankTokenizer : HuggingFaceTokenizer where
  inner :=
    { encode := fun text => .ok (if text = " " then [] else [5])
      decode := fun _ => .ok "x"
      vocabSize := 10
      tokenToId := fun _ => none }
  specialTokens := {}

def blankSession : Session (FunctionBackend stopAtFour) HuggingFaceTokenizer BufferedDecoder :=
  (new smallConfig blankTokenizer ⟨fun _ => []⟩).run
    [.submitRequest "hi" { maxTokens := 2 }, .submitRequest " " { maxTokens := 2 }]

/-- The batch with the blank prompt is refused, and the other request fails with it. -/
theorem not_accepts_blank :
    blankSession.Reachable smallConfig blankTokenizer ⟨fun _ => []⟩ ∧
      ¬ blankSession.engine.Accepts ∧
      ∃ report ∈ blankSession.step.reports, report.requestId = 1 ∧ report.success = false := by
  refine ⟨⟨by decide +kernel, _, rfl⟩, fun h => ?_, by decide +kernel⟩
  obtain ⟨b, hb⟩ := h.builds
  have hshape : (buildExecutionBatch blankSession.engine.output).bind validateBatchShape =
      .ok () := by
    rw [hb]
    exact h.shape b hb
  exact absurd hshape (by decide +kernel)

end Session

end PagedServing
