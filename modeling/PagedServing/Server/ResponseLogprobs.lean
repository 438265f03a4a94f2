import PagedServing.Engine.Logprobs
import PagedServing.Engine.StopStrings

/-! # Logprobs blocks of responses

`src/server.rs`: the logprobs block of a response, built from the whole report of a request
or, in a stream, from the entry of each chunk by itself.
-/

namespace PagedServing

open Scheduler LabelledLog TextSearch

/-! ## The result of a generation -/

inductive ApiError where
  | badRequest (message : String)
  | notFound (message : String)
  | overloaded (message : String)
  | internal (message : String)
  deriving DecidableEq

structure GenerationResult where
  text : String
  promptTokens : Nat
  completionTokens : Nat
  finishReason : String
  logprobs : Option (List TokenLogprobs)
  deriving DecidableEq

def FinishReason.asStr : FinishReason → String
  | .stop => "stop"
  | .length => "length"

def generationResult (promptTokens : Nat) (completed : CompletedRequest) :
    Except ApiError GenerationResult :=
  if completed.success then
    .ok
      { text := completed.outputText
        promptTokens := promptTokens
        completionTokens := completed.outputTokens.length
        finishReason := (completed.finishReason.getD .stop).asStr
        logprobs := completed.logprobs }
  else .error (.internal (completed.error.getD "generation failed"))

/-! ## Logprobs blocks -/

/-- What `serde_json::json!` makes of an `f32`. -/
inductive JsonNumber where
  | null
  | negZero
  | number (value : ℚ)
  deriving DecidableEq

def jsonNumber : F32 → JsonNumber
  | .finite value => .number value
  | .negZero => .negZero
  | _ => .null

/-- Insertion into a `serde_json::Map`, which is sorted by its keys. -/
def insertKey (key : String) (value : JsonNumber) :
    List (String × JsonNumber) → List (String × JsonNumber)
  | [] => [(key, value)]
  | (first, old) :: rest =>
      if key < first then (key, value) :: (first, old) :: rest
      else if key = first then (key, value) :: rest
      else (first, old) :: insertKey key value rest

structure LogprobsOutput where
  tokens : List String := []
  tokenLogprobs : List F32 := []
  topLogprobs : List (List (String × JsonNumber)) := []
  textOffset : List Nat := []
  deriving DecidableEq

section Blocks

variable {τ δ : Type} [TokenizerTrait τ δ]

def tokenText (tokenizer : τ) (token : TokenId) : String :=
  (TokenizerTrait.tryDecode tokenizer [token]).toOption.getD ""

/-- The text of a token, or a placeholder for one that has none. -/
def tokenLabel (tokenizer : τ) (token : TokenId) : String :=
  if tokenText tokenizer token = "" then s!"<token_id={token}>" else tokenText tokenizer token

/-- The top candidates of a position by their labels. -/
def topCandidates (tokenizer : τ) (k : Nat) (lp : TokenLogprobs) : List (String × JsonNumber) :=
  (lp.topLogprobs.take k).foldl
    (fun top p => insertKey (tokenLabel tokenizer p.1) (jsonNumber p.2) top) []

/-- One turn of the loop over the entries: the block so far and the running offset. -/
def LogprobsOutput.push (tokenizer : τ) (k : Nat) (acc : LogprobsOutput × Nat)
    (lp : TokenLogprobs) : LogprobsOutput × Nat :=
  ({ tokens := acc.1.tokens ++ [tokenLabel tokenizer lp.token]
     tokenLogprobs := acc.1.tokenLogprobs ++ [lp.logprob]
     topLogprobs := acc.1.topLogprobs ++ [topCandidates tokenizer k lp]
     textOffset := acc.1.textOffset ++ [acc.2] },
    acc.2 + byteLen (tokenText tokenizer lp.token))

def logprobsOutput (logprobs : List TokenLogprobs) (tokenizer : τ) (k : Nat) : LogprobsOutput :=
  (logprobs.foldl (LogprobsOutput.push tokenizer k) ({}, 0)).1

def choiceLogprobs (tokenizer : τ) (result : GenerationResult) (k : Nat) :
    Option LogprobsOutput :=
  result.logprobs.map fun lps => logprobsOutput lps tokenizer k

/-- The blocks of the chunks of a stream. -/
def chunkLogprobs (tokenizer : τ) (chunks : List StreamedChunk) (k : Nat) :
    List LogprobsOutput :=
  chunks.filterMap fun c => c.logprobs.map fun lp => logprobsOutput [lp] tokenizer k

end Blocks

/-- How many candidates the blocks of a request show. -/
def Request.topCount (r : Request) : Nat := r.params.logprobs.getD 1

namespace LogprobsOutput

/-- Blocks one after the other, field by field. -/
def concat (blocks : List LogprobsOutput) : LogprobsOutput where
  tokens := blocks.flatMap tokens
  tokenLogprobs := blocks.flatMap tokenLogprobs
  topLogprobs := blocks.flatMap topLogprobs
  textOffset := blocks.flatMap textOffset

/-- Every offset counts the bytes of the text before its token. -/
structure OffsetsIn (block : LogprobsOutput) (text : String) : Prop where
  tokens : String.join block.tokens = text
  length : block.textOffset.length = block.tokens.length
  offsets : ∀ i < block.tokens.length,
    block.textOffset[i]? = some (byteLen (String.join (block.tokens.take i)))

end LogprobsOutput

section Fields

variable {τ δ : Type} [TokenizerTrait τ δ] (tokenizer : τ) (k : Nat)

/-- The bytes of the texts of these tokens. -/
def textBytes (lps : List TokenLogprobs) : Nat :=
  (lps.map fun lp => byteLen (tokenText tokenizer lp.token)).sum

theorem foldl_push (lps : List TokenLogprobs) :
    lps.foldl (LogprobsOutput.push tokenizer k) ({}, 0) =
      ({ tokens := lps.map fun lp => tokenLabel tokenizer lp.token
         tokenLogprobs := lps.map (·.logprob)
         topLogprobs := lps.map (topCandidates tokenizer k)
         textOffset := (List.range lps.length).map fun i => textBytes tokenizer (lps.take i) },
        textBytes tokenizer lps) := by
  induction lps using List.reverseRecOn with
  | nil => rfl
  | append_singleton lps lp ih =>
    have hoffsets : (List.range lps.length).map
        (fun i => textBytes tokenizer ((lps ++ [lp]).take i)) =
          (List.range lps.length).map fun i => textBytes tokenizer (lps.take i) := by
      refine List.map_congr_left fun i hi => ?_
      rw [List.take_append_of_le_length (List.mem_range.1 hi).le]
    rw [List.foldl_append, ih, List.length_append, List.length_singleton, List.range_succ]
    simp only [List.map_append, hoffsets]
    simp [LogprobsOutput.push, textBytes]

theorem logprobsOutput_eq (lps : List TokenLogprobs) :
    logprobsOutput lps tokenizer k =
      { tokens := lps.map fun lp => tokenLabel tokenizer lp.token
        tokenLogprobs := lps.map (·.logprob)
        topLogprobs := lps.map (topCandidates tokenizer k)
        textOffset := (List.range lps.length).map fun i => textBytes tokenizer (lps.take i) } := by
  rw [logprobsOutput, foldl_push]

/-- In the blocks of single entries every offset starts again. -/
theorem concat_singles (lps : List TokenLogprobs) :
    LogprobsOutput.concat (lps.map fun lp => logprobsOutput [lp] tokenizer k) =
      { logprobsOutput lps tokenizer k with textOffset := lps.map fun _ => 0 } := by
  have hsingle (lp : TokenLogprobs) : (List.range [lp].length).map
      (fun i => textBytes tokenizer ([lp].take i)) = [0] := rfl
  simp only [logprobsOutput_eq, LogprobsOutput.concat, List.flatMap_map, hsingle, List.map_cons,
    List.map_nil, ← List.map_eq_flatMap]

theorem byteLen_join (texts : List String) :
    byteLen (String.join texts) = (texts.map byteLen).sum := by
  induction texts with
  | nil => rfl
  | cons text rest ih =>
    simp only [byteLen, String.toList_join, List.flatMap_cons, charsLen_append, List.map_cons,
      List.sum_cons] at ih ⊢
    rw [ih]

variable {tokenizer} {lps : List TokenLogprobs}

/-- Where all tokens have a text the labels are the texts. -/
theorem labels_eq (h : ∀ lp ∈ lps, tokenText tokenizer lp.token ≠ "") :
    (lps.map fun lp => tokenLabel tokenizer lp.token) =
      lps.map fun lp => tokenText tokenizer lp.token :=
  List.map_congr_left fun lp hlp => if_neg (h lp hlp)

theorem offsetsIn_logprobsOutput (h : ∀ lp ∈ lps, tokenText tokenizer lp.token ≠ "") :
    (logprobsOutput lps tokenizer k).OffsetsIn
      (String.join (lps.map fun lp => tokenText tokenizer lp.token)) := by
  rw [logprobsOutput_eq, labels_eq h]
  refine ⟨rfl, by simp, fun i hi => ?_⟩
  rw [List.length_map] at hi
  rw [List.getElem?_map, List.getElem?_range hi, ← List.map_take, byteLen_join, List.map_map]
  rfl

/-- The running offset spans the calls only if there is no second one. -/
theorem concat_eq_iff (h : ∀ lp ∈ lps, tokenText tokenizer lp.token ≠ "") :
    LogprobsOutput.concat (lps.map fun lp => logprobsOutput [lp] tokenizer k) =
      logprobsOutput lps tokenizer k ↔ lps.length ≤ 1 := by
  rw [concat_singles, logprobsOutput_eq]
  rcases lps with _ | ⟨first, _ | ⟨second, rest⟩⟩
  · exact iff_of_true rfl (Nat.zero_le 1)
  · exact iff_of_true rfl le_rfl
  · refine iff_of_false (fun heq => ?_) (by simp)
    have hoffsets := congrArg (fun block : LogprobsOutput => block.textOffset[1]?) heq
    have hbytes : byteLen (tokenText tokenizer first.token) = 0 := by
      simpa [textBytes, eq_comm] using hoffsets
    exact h first (by simp) (String.toList_eq_nil_iff.1 (charsLen_eq_zero.1 hbytes))

end Fields

/-! ## Generations of the character tokenizer -/

/-- Every token of these rows has a text and brings its own logprobs. -/
structure SimpleTokenizer.Supplied (t : SimpleTokenizer) (rows : List OutputRow) : Prop where
  entries : ∀ row ∈ rows, ∃ e, row.entry = some e ∧ e.token = row.token
  texts : ∀ row ∈ rows, tokenText t row.token ≠ ""

namespace SimpleTokenizer

theorem tokenText_eq (t : SimpleTokenizer) (token : TokenId) :
    tokenText t token = String.ofList (t.visible token).toList := by
  rw [tokenText, tryDecode_eq]
  cases h : t.visible token <;> simp [Except.toOption, h]

theorem join_tokenText (t : SimpleTokenizer) (tokens : List TokenId) :
    String.join (tokens.map (tokenText t)) = String.ofList (tokens.filterMap t.visible) := by
  rw [← String.toList_inj, String.toList_join, List.flatMap_map, String.toList_ofList]
  induction tokens with
  | nil => rfl
  | cons token rest ih =>
    rw [List.flatMap_cons, ih, tokenText_eq, List.filterMap_cons]
    cases t.visible token <;> simp

variable {x : Setting SimpleTokenizer} {r : Request} {rows : List OutputRow}

/-- Without stop strings every token with a text is streamed. -/
theorem streams_of_text (hstop : r.params.stop = []) {out : List TokenId} {token : TokenId}
    (htext : tokenText x.tokenizer token ≠ "") : x.streams r (out ++ [token]) = true := by
  rw [tokenText_eq] at htext
  have hpush : InferenceEngine.pushText (some (x.decoded out : List String × SimpleDecoder).2)
      token ≠ [] := by
    rw [Setting.decoded, pushAll_createDecoder, InferenceEngine.pushText, Option.elim_some,
      push_createDecoder]
    cases hvisible : x.tokenizer.visible token with
    | none => simp [hvisible] at htext
    | some c => simp [pushedText]
  rw [Setting.streams, Request.stopKeep_of_no_stop hstop, List.getLast?_concat,
    List.dropLast_concat]
  simpa using hpush

/-- The chunks and the request have the same logprobs, one for each token. -/
theorem Supplied.notes (hon : r.params.logprobs.isSome = true) (hstop : r.params.stop = [])
    (h : x.tokenizer.Supplied rows) :
    (x.notes r rows).map Prod.snd = r.carried rows ∧
      (r.carried rows).map (·.token) = rows.map (·.token) := by
  induction rows using List.reverseRecOn with
  | nil => exact ⟨by simp [Request.carried, Setting.notes], by simp [Request.carried]⟩
  | append_singleton rows row ih =>
    obtain ⟨e, hentry, htoken⟩ := h.entries row (by simp)
    obtain ⟨hnotes, htokens⟩ :=
      ih ⟨fun row hrow => h.entries row (by simp [hrow]), fun row hrow => h.texts row (by simp [hrow])⟩
    have hcarried : r.carried (rows ++ [row]) = r.carried rows ++ [e] := by
      rw [Request.carried_concat, if_pos hon, hentry]
      rfl
    have hstreams : x.streams r ((rows ++ [row]).map (·.token)) = true := by
      rw [List.map_append]
      exact streams_of_text hstop (h.texts row (by simp))
    rw [Setting.notes_concat, Setting.note, if_pos hstreams, hcarried, List.getLast?_concat]
    simp [hnotes, htokens, htoken]

end SimpleTokenizer

section Reports

variable {τ δ : Type} [TokenizerTrait τ δ] {x : Setting τ} {r : Request} {out : List TokenId}

theorem Setting.kept_of_no_stop (hstop : r.params.stop = []) : x.kept r out = out.length := by
  rw [kept, Request.stopKeep_of_no_stop hstop]
  split <;> rfl

/-- A completed request has generated a token. -/
theorem Setting.Ended.ne_nil [IncrementalDecoder δ] {req : Request} {decoder : Option δ}
    {texts : List String} (h : x.Ended r out req decoder texts) (hstate : req.state = .completed) :
    out ≠ [] := by
  cases h with
  | failed reason _ _ => cases hstate
  | finished _ hne _ _ => exact hne
  | finishedHit _ hne _ _ => exact hne
  | stopped _ hne _ _ => exact hne

end Reports

theorem generationResult_eq_ok {promptTokens : Nat} {completed : CompletedRequest}
    {result : GenerationResult} (h : generationResult promptTokens completed = .ok result) :
    completed.success = true ∧ result.text = completed.outputText ∧
      result.logprobs = completed.logprobs := by
  rw [generationResult] at h
  split at h
  next hsuccess =>
    obtain rfl := Except.ok.inj h
    exact ⟨hsuccess, rfl, rfl⟩
  next => cases h

/-- The blocks of a stream are those of the entries that the chunks note. -/
theorem chunkLogprobs_eq {τ δ : Type} [TokenizerTrait τ δ] (tokenizer : τ)
    (chunks : List StreamedChunk) (k : Nat) :
    chunkLogprobs tokenizer chunks k = ((chunks.filterMap StreamedChunk.note).map Prod.snd).map
      fun lp => logprobsOutput [lp] tokenizer k := by
  rw [chunkLogprobs, List.map_map, List.map_filterMap]
  refine List.filterMap_congr fun c _ => ?_
  rw [StreamedChunk.note, Option.map_map]
  rfl

namespace Session

variable {σ : Type} [GPUExecutorTrait σ] {config : EngineConfig} {t : SimpleTokenizer}
  {gpuExecutor : σ}

/-- The blocks of a stream make up the block of the whole response, but for the offsets: these
agree if and only if there is one token. -/
theorem blocks_agree_iff_of_run (hvalid : config.validate = .ok ()) (ops : List EngineOp)
    {r : Request} (hr : r ∈ ((new config t gpuExecutor).run ops).admitted)
    (hon : r.params.logprobs.isSome = true) (hstop : r.params.stop = [])
    (hsupplied : t.Supplied (rowsOf ((new config t gpuExecutor).run ops).calls r.id))
    {report : CompletedRequest} (hreport : report ∈ ((new config t gpuExecutor).run ops).reports)
    (hid : report.requestId = r.id) {promptTokens : Nat} {result : GenerationResult}
    (hresult : generationResult promptTokens report = .ok result) :
    ∃ block, choiceLogprobs t result r.topCount = some block ∧ block.OffsetsIn result.text ∧
      { LogprobsOutput.concat (chunkLogprobs t
          ((new config t gpuExecutor).chunksOf ops r.id) r.topCount) with
        textOffset := block.textOffset } = block ∧
      (LogprobsOutput.concat (chunkLogprobs t
          ((new config t gpuExecutor).chunksOf ops r.id) r.topCount) = block ↔
        (((new config t gpuExecutor).run ops).generated r.id).length ≤ 1) := by
  have hreach : ((new config t gpuExecutor).run ops).Reachable config t gpuExecutor :=
    ⟨hvalid, ops, rfl⟩
  have hi := hreach.inv_any.1
  have hadmits := (hi.admits r hr).1
  obtain ⟨v, hsteps, hv, hplace⟩ :=
    hi.record (documented_run hvalid t gpuExecutor ops) hr hreport hid
  obtain ⟨hsuccess, htext, hlogprobs⟩ := generationResult_eq_ok hresult
  obtain ⟨texts, hallows⟩ := Record.Steps.allows hadmits hsteps
  have hlogs := Record.Steps.logs hadmits hsteps
  have hnotes := Record.Steps.notes hadmits hsteps
  rw [hplace] at hallows hlogs
  obtain ⟨req, decoder, before, hended, hstate, hdecode, hreq, -⟩ := hallows.of_success hsuccess
  rw [← hv.rows] at hsupplied
  obtain ⟨hstreamed, htokens⟩ :=
    SimpleTokenizer.Supplied.notes (x := settingOf config t) hon hstop hsupplied
  obtain ⟨hout, hentries⟩ := hlogs
  rw [Setting.kept_of_no_stop hstop, List.take_length] at hout
  rw [Setting.kept_of_no_stop hstop, ← htokens, List.length_map, List.take_length] at hentries
  -- the response has the block of all entries, since there is at least one
  have hsome : report.logprobs = some (r.carried v.rows) := by
    cases hlist : report.logprobs with
    | some lps => exact congrArg some (by rw [← hentries, hlist]; rfl)
    | none =>
        rw [hlist, Option.getD_none] at hentries
        rw [← hentries, List.map_nil] at htokens
        exact absurd htokens.symm (hended.ne_nil hstate)
  have htexts : ∀ lp ∈ r.carried v.rows, tokenText t lp.token ≠ "" := by
    intro lp hlp
    have hmem : lp.token ∈ v.rows.map (·.token) := htokens ▸ List.mem_map_of_mem hlp
    obtain ⟨row, hrow, heq⟩ := List.mem_map.1 hmem
    exact heq ▸ hsupplied.texts row hrow
  have hjoin : String.join ((r.carried v.rows).map fun lp => tokenText t lp.token) =
      result.text := by
    have hmap : ((r.carried v.rows).map fun lp => tokenText t lp.token) =
        report.outputTokens.map (tokenText t) := by
      rw [hout, ← htokens, List.map_map]
      rfl
    have hreqOut : report.outputTokens = req.outputTokens := hreq ▸ rfl
    rw [hmap, t.join_tokenText, htext, hreqOut]
    exact Except.ok.inj hdecode
  have hblocks : chunkLogprobs t ((new config t gpuExecutor).chunksOf ops r.id) r.topCount =
      (r.carried v.rows).map fun lp => logprobsOutput [lp] t r.topCount := by
    rw [chunkLogprobs_eq, ← hstreamed, ← hnotes, hv.chunks]
    rfl
  have hlength : (((new config t gpuExecutor).run ops).generated r.id).length =
      (r.carried v.rows).length := by
    rw [generated_length, ← hv.rows, ← List.length_map, ← htokens, List.length_map]
  refine ⟨logprobsOutput (r.carried v.rows) t r.topCount, ?_, ?_, ?_, ?_⟩
  · rw [choiceLogprobs, hlogprobs, hsome]
    rfl
  · rw [← hjoin]
    exact offsetsIn_logprobsOutput r.topCount htexts
  · rw [hblocks, concat_singles]
  · rw [hblocks, hlength]
    exact concat_eq_iff r.topCount htexts

/-! ## A stream of two tokens -/

def numberedStart : Session NumberingBackend SimpleTokenizer SimpleDecoder :=
  new smallConfig SimpleTokenizer.new ⟨0, []⟩

def numberedOps : List EngineOp :=
  [.submitRequest "a" { maxTokens := 2, logprobs := some 1 }, .stepEvents, .stepEvents]

def numberedRequest : Request := Request.new 1 [1, 69, 2] { maxTokens := 2, logprobs := some 1 }

def numberedReport : CompletedRequest where
  requestId := 1
  inputText := some "a"
  outputText := "DE"
  outputTokens := [40, 41]
  success := true
  error := none
  finishReason := some .length
  logprobs := some [⟨40, .finite (-1), []⟩, ⟨41, .finite (-1), []⟩]

def numberedResult : GenerationResult where
  text := "DE"
  promptTokens := 3
  completionTokens := 2
  finishReason := "length"
  logprobs := some [⟨40, .finite (-1), []⟩, ⟨41, .finite (-1), []⟩]

private theorem supplied_numbered : SimpleTokenizer.new.Supplied
    (rowsOf (numberedStart.run numberedOps).calls numberedRequest.id) := by
  have hrows : rowsOf (numberedStart.run numberedOps).calls numberedRequest.id =
      [⟨40, some (some ⟨40, .finite (-1), []⟩)⟩, ⟨41, some (some ⟨41, .finite (-1), []⟩)⟩] := by
    decide +kernel
  rw [hrows]
  refine ⟨?_, by decide +kernel⟩
  intro row hrow
  simp only [List.mem_cons, List.not_mem_nil, or_false] at hrow
  rcases hrow with rfl | rfl
  · exact ⟨_, rfl, rfl⟩
  · exact ⟨_, rfl, rfl⟩

theorem blocks_agree_iff_of_run_numbered :
    ∃ block, choiceLogprobs SimpleTokenizer.new numberedResult 1 = some block ∧
      block.OffsetsIn "DE" ∧
      { LogprobsOutput.concat (chunkLogprobs SimpleTokenizer.new
          (numberedStart.chunksOf numberedOps 1) 1) with textOffset := block.textOffset } = block ∧
      (LogprobsOutput.concat (chunkLogprobs SimpleTokenizer.new
          (numberedStart.chunksOf numberedOps 1) 1) = block ↔
        ((numberedStart.run numberedOps).generated 1).length ≤ 1) := by
  have hr : numberedRequest ∈ (numberedStart.run numberedOps).admitted := by decide +kernel
  have hreport : numberedReport ∈ (numberedStart.run numberedOps).reports := by decide +kernel
  have hresult : generationResult 3 numberedReport = .ok numberedResult := rfl
  exact blocks_agree_iff_of_run (by decide +kernel) numberedOps hr rfl rfl supplied_numbered
    hreport rfl hresult

/-- The second chunk says that its token starts the text. -/
theorem not_blocks_agree_numbered :
    ¬ ∀ (ops : List EngineOp) (r : Request) (report : CompletedRequest) (promptTokens : Nat)
      (result : GenerationResult) (block : LogprobsOutput),
      r ∈ (numberedStart.run ops).admitted → r.params.logprobs.isSome = true →
      r.params.stop = [] →
      SimpleTokenizer.new.Supplied (rowsOf (numberedStart.run ops).calls r.id) →
      report ∈ (numberedStart.run ops).reports → report.requestId = r.id →
      generationResult promptTokens report = .ok result →
      choiceLogprobs SimpleTokenizer.new result r.topCount = some block →
        LogprobsOutput.concat (chunkLogprobs SimpleTokenizer.new (numberedStart.chunksOf ops r.id)
          r.topCount) = block ∧ block.OffsetsIn result.text := by
  intro h
  have hr : numberedRequest ∈ (numberedStart.run numberedOps).admitted := by decide +kernel
  have hreport : numberedReport ∈ (numberedStart.run numberedOps).reports := by decide +kernel
  have hresult : generationResult 3 numberedReport = .ok numberedResult := rfl
  have hagree := (h numberedOps numberedRequest numberedReport 3 numberedResult _ hr rfl rfl
    supplied_numbered hreport rfl hresult rfl).1
  have hstreamed : (LogprobsOutput.concat (chunkLogprobs SimpleTokenizer.new
      (numberedStart.chunksOf numberedOps numberedRequest.id)
      numberedRequest.topCount)).textOffset = [0, 0] := by decide +kernel
  rw [hagree] at hstreamed
  revert hstreamed
  decide +kernel

end Session

end PagedServing
