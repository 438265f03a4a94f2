import PagedServing.Engine.Streaming

/-! # Stop strings

Where a text is cut, what is reported of it and what has been streamed by then. The
engine cuts a request that is still running; one that its last token has completed
already is left uncut.
-/

namespace PagedServing

open Scheduler TextSearch

/-! ## The first stop string of a text -/

/-- No stop string stands anywhere in the text. -/
def StopFree (stops : List String) (text : List Char) : Prop :=
  ∀ stop ∈ stops, stop ≠ "" → ∀ k, ¬ OccursAt stop.toList text k

/-- The first character from which any of the stop strings stands in the text. -/
structure FirstStopAt (stops : List String) (text : List Char) (k : Nat) : Prop where
  occurs : ∃ stop ∈ stops, stop ≠ "" ∧ OccursAt stop.toList text k
  first : ∀ j < k, ∀ stop ∈ stops, stop ≠ "" → ¬ OccursAt stop.toList text j

variable {stops : List String} {text : List Char} {k : Nat}

theorem FirstStopAt.lt_length (h : FirstStopAt stops text k) : k < text.length := by
  obtain ⟨stop, -, hne, hocc⟩ := h.occurs
  exact hocc.lt_length (mt String.toList_eq_nil_iff.1 hne)

theorem FirstStopAt.not_stopFree (h : FirstStopAt stops text k) : ¬ StopFree stops text := by
  obtain ⟨stop, hstop, hne, hocc⟩ := h.occurs
  exact fun hfree => hfree stop hstop hne k hocc

theorem FirstStopAt.unique {j : Nat} (h : FirstStopAt stops text k) (h' : FirstStopAt stops text j) :
    j = k := by
  obtain ⟨stop, hstop, hne, hocc⟩ := h.occurs
  obtain ⟨stop', hstop', hne', hocc'⟩ := h'.occurs
  rcases Nat.lt_trichotomy j k with hlt | heq | hgt
  · exact absurd hocc' (h.first j hlt stop' hstop' hne')
  · exact heq
  · exact absurd hocc (h'.first k hgt stop hstop hne)

/-- The text before the first stop string is free of all of them. -/
theorem FirstStopAt.stopFree_take (h : FirstStopAt stops text k) : StopFree stops (text.take k) := by
  intro stop hstop hne j hocc
  have hj := hocc.lt_length (mt String.toList_eq_nil_iff.1 hne)
  rw [List.length_take] at hj
  exact h.first j (by omega) stop hstop hne (hocc.of_prefix (List.take_prefix _ _))

theorem StopFree.of_prefix {short : List Char} (h : StopFree stops text) (hp : short <+: text) :
    StopFree stops short := fun stop hstop hne j hocc => h stop hstop hne j (hocc.of_prefix hp)

theorem findStopSequence_eq_none {s : String} :
    findStopSequence s stops = none ↔ StopFree stops s.toList := by
  simp only [findStopSequence, List.min?_eq_none_iff, List.filterMap_eq_nil_iff, List.mem_filter,
    find, findChars_eq_none, StopFree, and_imp]
  refine forall₂_congr fun stop _ => ?_
  by_cases h : stop = "" <;> simp [h]

theorem findStopSequence_eq_some {s : String} {offset : Nat}
    (h : findStopSequence s stops = some offset) :
    ∃ k, FirstStopAt stops s.toList k ∧ offset = charsLen (s.toList.take k) := by
  rw [findStopSequence, List.min?_eq_some_iff] at h
  obtain ⟨hmem, hmin⟩ := h
  obtain ⟨stop, hstop, hfind⟩ := List.mem_filterMap.1 hmem
  obtain ⟨hstop, hne⟩ := List.mem_filter.1 hstop
  obtain ⟨k, rfl, hocc, -⟩ := findChars_eq_some hfind
  refine ⟨k, ⟨⟨stop, hstop, by simpa using hne, hocc⟩, ?_⟩, rfl⟩
  intro j hj stop' hstop' hne' hocc'
  -- an earlier stop string would be found at a smaller offset
  cases hfind' : find s stop' with
  | none => exact findChars_eq_none.1 hfind' j hocc'
  | some offset' =>
      obtain ⟨i, rfl, hi, hfirst⟩ := findChars_eq_some hfind'
      have hij : i ≤ j := Nat.le_of_not_lt fun hlt => hfirst j hlt hocc'
      have hle := hmin _ (List.mem_filterMap.2 ⟨stop',
        List.mem_filter.2 ⟨hstop', by simpa using hne'⟩, hfind'⟩)
      exact absurd (charsLen_take_lt (hij.trans_lt hj) hocc.1) (Nat.not_lt.2 hle)

/-! ## Cutting the tokens -/

section Cutting

variable {τ δ : Type} [TokenizerTrait τ δ]

/-- Bytes that the scan of `tokens_before_char` counts for one token. -/
def segmentLen (tokenizer : τ) (token : TokenId) : Nat :=
  match TokenizerTrait.tryDecode tokenizer [token] with
  | .ok segment => byteLen segment
  | .error _ => 0

theorem countTokensBefore_cons (tokenizer : τ) (byteOffset index len : Nat) (token : TokenId)
    (rest : List TokenId) :
    countTokensBefore tokenizer byteOffset (token :: rest) index len =
      if byteOffset ≤ len then index
      else countTokensBefore tokenizer byteOffset rest (index + 1)
        (len + segmentLen tokenizer token) := by
  rw [countTokensBefore, segmentLen]
  cases TokenizerTrait.tryDecode tokenizer [token] <;> rfl

/-- The scan stops at the first token with enough bytes before it. -/
theorem countTokensBefore_spec (tokenizer : τ) (byteOffset : Nat) (tokens : List TokenId)
    (index len : Nat) :
    ∃ m ≤ tokens.length, countTokensBefore tokenizer byteOffset tokens index len = index + m ∧
      (m = tokens.length ∨
        byteOffset ≤ len + ((tokens.take m).map (segmentLen tokenizer)).sum) ∧
      ∀ j < m, len + ((tokens.take j).map (segmentLen tokenizer)).sum < byteOffset := by
  induction tokens generalizing index len with
  | nil => exact ⟨0, le_rfl, rfl, .inl rfl, by simp⟩
  | cons token rest ih =>
    rw [countTokensBefore_cons]
    split
    next hle => exact ⟨0, Nat.zero_le _, rfl, .inr (by simpa using hle), by simp⟩
    next hlt =>
      obtain ⟨m, hm, heq, hstop, hgo⟩ := ih (index + 1) (len + segmentLen tokenizer token)
      refine ⟨m + 1, by simpa using hm, by rw [heq]; omega, ?_, ?_⟩
      · rcases hstop with rfl | hle
        · exact .inl (by simp)
        · exact .inr (by simpa [Nat.add_assoc] using hle)
      · intro j hj
        cases j with
        | zero => simpa using hlt
        | succ j => simpa [Nat.add_assoc] using hgo j (by omega)

theorem tokensBeforeChar_spec (tokenizer : τ) (tokens : List TokenId) (byteOffset : Nat) :
    tokensBeforeChar tokens tokenizer byteOffset ≤ tokens.length ∧
      (tokensBeforeChar tokens tokenizer byteOffset = tokens.length ∨
        byteOffset ≤ ((tokens.take (tokensBeforeChar tokens tokenizer byteOffset)).map
          (segmentLen tokenizer)).sum) ∧
      ∀ j < tokensBeforeChar tokens tokenizer byteOffset,
        ((tokens.take j).map (segmentLen tokenizer)).sum < byteOffset := by
  obtain ⟨m, hm, heq, hstop, hgo⟩ := countTokensBefore_spec tokenizer byteOffset tokens 0 0
  rw [Nat.zero_add] at heq
  rw [tokensBeforeChar, heq]
  exact ⟨hm, by simpa using hstop, by simpa using hgo⟩

theorem Request.stopKeep_eq {tokenizer : τ} {r : Request} {out : List TokenId} {s : String}
    (htext : TokenizerTrait.tryDecode tokenizer out = .ok s) :
    (r.withOutput out).stopKeep tokenizer =
      (findStopSequence s r.params.stop).map (tokensBeforeChar out tokenizer) := by
  simp only [stopKeep, withOutput, htext, List.isEmpty_iff]
  split
  next hnil => simp [hnil, findStopSequence]
  next => rfl

end Cutting

namespace SimpleTokenizer

variable (t : SimpleTokenizer)

/-- The text of a list of tokens. -/
def textOf (tokens : List TokenId) : List Char := tokens.filterMap t.visible

theorem textOf_append (tokens more : List TokenId) :
    t.textOf (tokens ++ more) = t.textOf tokens ++ t.textOf more := List.filterMap_append

theorem textOf_take_prefix (tokens : List TokenId) (j : Nat) :
    t.textOf (tokens.take j) <+: t.textOf tokens := by
  conv_rhs => rw [← List.take_append_drop j tokens]
  rw [textOf_append]
  exact List.prefix_append _ _

theorem sum_segmentLen (tokens : List TokenId) :
    (tokens.map (segmentLen t)).sum = charsLen (t.textOf tokens) := by
  induction tokens with
  | nil => rfl
  | cons token rest ih =>
    have hone : segmentLen t token = charsLen (t.textOf [token]) := by
      simp [segmentLen, tryDecode_eq, byteLen, textOf]
    rw [List.map_cons, List.sum_cons, ih, hone, ← charsLen_append, ← textOf_append]
    rfl

theorem textOf_length_le_one (token : TokenId) : (t.textOf [token]).length ≤ 1 := by
  rw [textOf, List.filterMap_cons]
  split <;> simp

/-- The tokens kept at a stop string decode to the text before it. -/
theorem textOf_take_tokensBeforeChar (out : List TokenId) {k : Nat}
    (hk : k < (t.textOf out).length) :
    t.textOf (out.take (tokensBeforeChar out t (charsLen ((t.textOf out).take k)))) =
      (t.textOf out).take k := by
  obtain ⟨hm, hstop, hgo⟩ := tokensBeforeChar_spec t out (charsLen ((t.textOf out).take k))
  set m := tokensBeforeChar out t (charsLen ((t.textOf out).take k))
  simp only [sum_segmentLen] at hstop hgo
  have hp := t.textOf_take_prefix out m
  have htake (j : Nat) : t.textOf (out.take j) =
      (t.textOf out).take (t.textOf (out.take j)).length :=
    List.prefix_iff_eq_take.1 (t.textOf_take_prefix out j)
  have hle (j : Nat) : (t.textOf (out.take j)).length ≤ (t.textOf out).length :=
    (t.textOf_take_prefix out j).length_le
  have hlow : k ≤ (t.textOf (out.take m)).length := by
    rcases hstop with hall | hbytes
    · rw [hall, List.take_length]
      exact hk.le
    · rw [htake m] at hbytes
      exact (charsLen_take_le_iff hk.le (hle m)).1 hbytes
  have hhigh : (t.textOf (out.take m)).length ≤ k := by
    cases hcase : m with
    | zero => simp [textOf]
    | succ j =>
        have hprev := hgo j (by omega)
        rw [htake j] at hprev
        have hlt : (t.textOf (out.take j)).length < k :=
          Nat.lt_of_not_le fun h => absurd ((charsLen_take_le_iff hk.le (hle j)).2 h)
            (Nat.not_le.2 hprev)
        have hj : j < out.length := by omega
        rw [List.take_succ_eq_append_getElem hj, textOf_append, List.length_append]
        have := t.textOf_length_le_one out[j]
        omega
  rw [htake m, hlow.antisymm hhigh]

end SimpleTokenizer

/-! ## Reports of successful requests -/

/-- The last of these tokens ends the request, whose text has come to contain a stop string. -/
def Setting.Ties {τ : Type} (x : Setting τ) (r : Request) (out : List TokenId) (text : List Char) :
    Prop :=
  x.finishes (r.withOutput out) = true ∧ ¬ StopFree r.params.stop text

/-- What a report owes to the stop strings, given all tokens generated for the request. -/
structure CompletedRequest.HonoursStops (report : CompletedRequest) (t : SimpleTokenizer)
    (stops : List String) (generated : List TokenId) : Prop where
  stopFree : StopFree stops report.outputText.toList
  truncated : ∀ j, ¬ StopFree stops (t.textOf (generated.take j)) →
    ∃ k, FirstStopAt stops (t.textOf generated) k ∧
      report.outputText.toList = (t.textOf generated).take k ∧
      t.textOf report.outputTokens = report.outputText.toList ∧ report.finishReason = some .stop

section Simple

variable {x : Setting SimpleTokenizer} {r : Request} {out : List TokenId} {texts : List String}
  {report : CompletedRequest}

/-- The stop check reads the text of the tokens. -/
theorem SimpleTokenizer.stopKeep_cases (t : SimpleTokenizer) (r : Request) (out : List TokenId) :
    (StopFree r.params.stop (t.textOf out) ∧ (r.withOutput out).stopKeep t = none) ∨
      ∃ k, FirstStopAt r.params.stop (t.textOf out) k ∧
        (r.withOutput out).stopKeep t =
          some (tokensBeforeChar out t (charsLen ((t.textOf out).take k))) := by
  rw [Request.stopKeep_eq (t.tryDecode_eq out)]
  cases hfind : findStopSequence (String.ofList (out.filterMap t.visible)) r.params.stop with
  | none =>
      have hfree := findStopSequence_eq_none.1 hfind
      rw [String.toList_ofList] at hfree
      exact .inl ⟨hfree, rfl⟩
  | some offset =>
      obtain ⟨k, hk, rfl⟩ := findStopSequence_eq_some hfind
      rw [String.toList_ofList] at hk
      exact .inr ⟨k, hk, by rw [String.toList_ofList]; rfl⟩

theorem SimpleTokenizer.stopFree_of_stopKeep {t : SimpleTokenizer}
    (h : (r.withOutput out).stopKeep t = none) : StopFree r.params.stop (t.textOf out) := by
  rcases t.stopKeep_cases r out with ⟨hfree, -⟩ | ⟨k, -, hkeep⟩
  · exact hfree
  · simp [h] at hkeep

theorem SimpleTokenizer.firstStopAt_of_stopKeep {t : SimpleTokenizer} {keep : Nat}
    (h : (r.withOutput out).stopKeep t = some keep) :
    ∃ k, FirstStopAt r.params.stop (t.textOf out) k ∧
      t.textOf (out.take keep) = (t.textOf out).take k := by
  rcases t.stopKeep_cases r out with ⟨-, hnone⟩ | ⟨k, hk, hkeep⟩
  · simp [h] at hnone
  · rw [h, Option.some.injEq] at hkeep
    exact ⟨k, hk, hkeep ▸ t.textOf_take_tokensBeforeChar out hk.lt_length⟩

theorem SimpleTokenizer.toList_of_tryDecode {t : SimpleTokenizer} {tokens : List TokenId}
    {text : String} (h : TokenizerTrait.tryDecode t tokens = .ok text) :
    text.toList = t.textOf tokens := by
  rw [t.tryDecode_eq, Except.ok.injEq] at h
  rw [← h, String.toList_ofList, textOf]

/-- Stop strings are honoured exactly when the token that completes one does not also end
the request. -/
theorem Setting.Allows.honoursStops_iff
    (h : x.Allows r out texts (.reported report : Place SimpleDecoder))
    (hsuccess : report.success = true) :
    report.HonoursStops x.tokenizer r.params.stop out ↔
      ¬ x.Ties r out (x.tokenizer.textOf out) := by
  obtain ⟨req, decoder, before, hended, hcompleted, htext, hreport, -⟩ := h.of_success hsuccess
  have hout := SimpleTokenizer.toList_of_tryDecode htext
  have htokens : report.outputTokens = req.outputTokens := hreport ▸ rfl
  cases hended with
  | failed reason _ _ => simp [Request.fail] at hcompleted
  | finished hreq _ _ hstop =>
      have hfree := SimpleTokenizer.stopFree_of_stopKeep hstop
      rw [hreq.outputTokens] at hout
      refine iff_of_true ⟨hout ▸ hfree, fun j hj => ?_⟩ fun hties => hties.2 hfree
      exact absurd (hfree.of_prefix (x.tokenizer.textOf_take_prefix out j)) hj
  | finishedHit hreq _ hfin hstop =>
      obtain ⟨k, hk, -⟩ := SimpleTokenizer.firstStopAt_of_stopKeep hstop
      rw [hreq.outputTokens] at hout
      refine iff_of_false (fun hhonours => hk.not_stopFree ?_) fun hno =>
        hno ⟨hfin, hk.not_stopFree⟩
      exact hout ▸ hhonours.stopFree
  | stopped hreq _ hfin hstop =>
      obtain ⟨k, hk, htake⟩ := SimpleTokenizer.firstStopAt_of_stopKeep hstop
      dsimp only at hout
      rw [hreq.outputTokens, htake] at hout
      refine iff_of_true ⟨hout ▸ hk.stopFree_take, fun _ _ => ⟨k, hk, hout, ?_, ?_⟩⟩
        fun hties => absurd hties.1 (by simp [hfin])
      · rw [htokens, hout]
        exact hreq.outputTokens ▸ htake
      · rw [hreport]
        simp [Request.report, htext]

end Simple

/-! ## Runs -/

namespace Session

/-- A successful request honours its stop strings if and only if the token that completed
one of them did not also end the request. -/
theorem honoursStops_iff_of_reachable {σ : Type} [GPUExecutorTrait σ] {config : EngineConfig}
    {tokenizer : SimpleTokenizer} {gpuExecutor : σ} {s : Session σ SimpleTokenizer SimpleDecoder}
    (hs : s.Reachable config tokenizer gpuExecutor) {r : Request} {report : CompletedRequest}
    (hr : r ∈ s.admitted) (hreport : report ∈ s.reports) (hid : report.requestId = r.id)
    (hsuccess : report.success = true) :
    report.HonoursStops tokenizer r.params.stop (s.generated r.id) ↔
      ¬ (settingOf config tokenizer).Ties r (s.generated r.id)
        (tokenizer.textOf (s.generated r.id)) :=
  (hs.inv_any.1.outcome hr hreport hid).2.honoursStops_iff hsuccess

/-- The only token asked for completes the stop string `D`. -/
def tiedOps : List EngineOp :=
  [.submitRequest "a" { maxTokens := 1, stop := ["D"] }, .stepEvents]

def tiedRequest : Request := Request.new 1 [1, 69, 2] { maxTokens := 1, stop := ["D"] }

def tiedReport : CompletedRequest where
  requestId := 1
  inputText := some "a"
  outputText := "D"
  outputTokens := [40]
  success := true
  error := none
  finishReason := some .length
  logprobs := none

def tiedSession : Session (FunctionBackend stopAtFour) SimpleTokenizer SimpleDecoder :=
  (new smallConfig SimpleTokenizer.new ⟨fun _ => []⟩).run tiedOps

theorem tiedSession_reachable :
    tiedSession.Reachable smallConfig SimpleTokenizer.new ⟨fun _ => []⟩ :=
  ⟨by decide +kernel, tiedOps, rfl⟩

theorem honoursStops_iff_of_reachable_tied :
    tiedReport.HonoursStops SimpleTokenizer.new ["D"] [40] ↔
      ¬ (settingOf smallConfig SimpleTokenizer.new).Ties tiedRequest [40] ['D'] := by
  have hr : tiedRequest ∈ tiedSession.admitted := by decide +kernel
  have hreport : tiedReport ∈ tiedSession.reports := by decide +kernel
  have htokens : tiedSession.generated 1 = [40] := by decide +kernel
  have htext : SimpleTokenizer.new.textOf [40] = ['D'] := by decide +kernel
  rw [← htext, ← htokens]
  exact honoursStops_iff_of_reachable tiedSession_reachable hr hreport rfl rfl

/-- A stop string that the last token completes is reported with the output. -/
theorem not_honoursStops_tied :
    ¬ ∀ (s : Session (FunctionBackend stopAtFour) SimpleTokenizer SimpleDecoder) (r : Request)
      (report : CompletedRequest), s.Reachable smallConfig SimpleTokenizer.new ⟨fun _ => []⟩ →
      r ∈ s.admitted → report ∈ s.reports → report.requestId = r.id → report.success = true →
      report.HonoursStops SimpleTokenizer.new r.params.stop (s.generated r.id) := by
  intro h
  have hr : tiedRequest ∈ tiedSession.admitted := by decide +kernel
  have hreport : tiedReport ∈ tiedSession.reports := by decide +kernel
  have hfree := (h tiedSession tiedRequest tiedReport tiedSession_reachable hr hreport rfl
    rfl).stopFree
  exact hfree "D" (by decide) (by decide) 0 (occursAt_zero.2 (by decide))

end Session

end PagedServing
