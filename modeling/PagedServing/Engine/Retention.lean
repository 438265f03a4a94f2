import PagedServing.Engine.Truncation

/-! # What has been streamed of a cut output

A stop hit takes the decoder of its request away unflushed. A decoder that returns text
token by token has then returned all that is kept; one that buffers has returned nothing.
-/

namespace PagedServing

open Scheduler TextSearch

/-- The reported output begins the streamed text. -/
def CompletedRequest.Retained (report : CompletedRequest) (texts : List String) : Prop :=
  report.outputText.toList <+: (String.join texts).toList

/-! ## Character decoder -/

section Simple

variable {x : Setting SimpleTokenizer} {r : Request} {out : List TokenId} {texts : List String}
  {report : CompletedRequest} {answer : List TokenId → TokenId → Prop}

theorem SimpleTokenizer.join_decoded (x : Setting SimpleTokenizer) (out : List TokenId) :
    (String.join ((x.decoded out : List String × SimpleDecoder).1)).toList =
      x.tokenizer.textOf out := by
  rw [Setting.decoded, x.tokenizer.pushAll_createDecoder, join_singletons, String.toList_ofList,
    textOf]

/-- Before the last token no stop string was there. -/
theorem Setting.Generates.stopFree_dropLast (h : x.Generates answer r out) :
    StopFree r.params.stop (x.tokenizer.textOf out.dropLast) := by
  rcases Nat.lt_or_ge 1 out.length with hlen | hlen
  · have hopen := h.opens (out.length - 1) (by omega) (by omega)
    rw [List.dropLast_eq_take]
    exact SimpleTokenizer.stopFree_of_stopKeep hopen.stopKeep
  · have hnil : out.dropLast = [] := by
      rw [← List.length_eq_zero_iff, List.length_dropLast]
      omega
    intro stop _ hne k hocc
    have := hocc.lt_length (mt String.toList_eq_nil_iff.1 hne)
    simp [hnil, SimpleTokenizer.textOf] at this

theorem SimpleTokenizer.take_prefix_dropLast (t : SimpleTokenizer) {k : Nat}
    (hk : k < (t.textOf out).length) : (t.textOf out).take k <+: t.textOf out.dropLast := by
  have hne : out ≠ [] := by
    rintro rfl
    simp [textOf] at hk
  have hsplit : t.textOf out = t.textOf out.dropLast ++ t.textOf [out.getLast hne] := by
    rw [← textOf_append, List.dropLast_append_getLast]
  have hone := t.textOf_length_le_one (out.getLast hne)
  rw [hsplit, List.length_append] at hk
  rw [hsplit, List.take_append_of_le_length (by omega)]
  exact List.take_prefix _ _

theorem Setting.Allows.retained_iff_simple (hgen : x.Generates answer r out)
    (h : x.Allows r out texts (.reported report : Place SimpleDecoder))
    (hsuccess : report.success = true) :
    report.Retained texts ↔ ¬ x.Ties r out (x.tokenizer.textOf out) := by
  obtain ⟨req, decoder, before, hended, hcompleted, htext, -, rfl⟩ := h.of_success hsuccess
  have hout := SimpleTokenizer.toList_of_tryDecode htext
  rw [CompletedRequest.Retained]
  cases hended with
  | failed reason _ _ => simp [Request.fail] at hcompleted
  | finished hreq hne _ hstop =>
      have hfree := SimpleTokenizer.stopFree_of_stopKeep hstop
      rw [hreq.outputTokens] at htext
      rw [decoded, x.tokenizer.decodesInPieces out hne _ htext]
      exact iff_of_true (List.prefix_refl _) fun hties => hties.2 hfree
  | finishedHit hreq _ hfin hstop =>
      obtain ⟨k, hk, -⟩ := SimpleTokenizer.firstStopAt_of_stopKeep hstop
      rw [hreq.outputTokens] at hout
      rw [tailText, List.append_nil, SimpleTokenizer.join_decoded, hout]
      refine iff_of_false (fun hp => hk.not_stopFree ?_) fun hno => hno ⟨hfin, hk.not_stopFree⟩
      exact hgen.stopFree_dropLast.of_prefix hp
  | stopped hreq _ hfin hstop =>
      obtain ⟨k, hk, htake⟩ := SimpleTokenizer.firstStopAt_of_stopKeep hstop
      dsimp only at hout
      rw [hreq.outputTokens, htake] at hout
      rw [tailText, List.append_nil, SimpleTokenizer.join_decoded, hout]
      exact iff_of_true (x.tokenizer.take_prefix_dropLast hk.lt_length)
        fun hties => absurd hties.1 (by simp [hfin])

end Simple

/-! ## Buffering decoder -/

section Buffered

variable {x : Setting HuggingFaceTokenizer} {r : Request} {out : List TokenId}
  {texts : List String} {report : CompletedRequest} {piece : TokenId → String}

/-- The library decodes token by token. -/
def HuggingFaceTokenizer.Concatenative (t : HuggingFaceTokenizer) (piece : TokenId → String) : Prop :=
  ∀ tokens, t.inner.decode tokens = .ok (String.join (tokens.map piece))

theorem HuggingFaceTokenizer.Concatenative.piecewise {t : HuggingFaceTokenizer}
    (h : t.Concatenative piece) : DecodesPiecewise t piece := h

/-- What is kept at a stop string is empty exactly when the text begins with it. -/
theorem HuggingFaceTokenizer.Concatenative.kept_eq_nil_iff {t : HuggingFaceTokenizer}
    (h : t.Concatenative piece) {text : List Char}
    (htext : text = (String.join (out.map piece)).toList) {k : Nat} (hk : k < text.length) :
    (String.join ((out.take (tokensBeforeChar out t (charsLen (text.take k)))).map piece)).toList =
      [] ↔ k = 0 := by
  obtain ⟨-, hstop, hgo⟩ := tokensBeforeChar_spec t out (charsLen (text.take k))
  set m := tokensBeforeChar out t (charsLen (text.take k))
  simp only [h.piecewise.sum_segmentLen, joinPieces] at hstop hgo
  constructor
  · intro hnil
    by_contra hne
    have hpos : charsLen (text.take k) ≠ 0 := by
      rw [Ne, charsLen_eq_zero, List.take_eq_nil_iff, not_or]
      exact ⟨hne, List.ne_nil_of_length_pos (by omega)⟩
    rcases hstop with hall | hbytes
    · rw [hall, List.take_length, ← htext] at hnil
      simp [hnil] at hk
    · rw [byteLen, hnil] at hbytes
      exact hpos (Nat.le_zero.1 hbytes)
  · rintro rfl
    have hzero : m = 0 := by
      by_contra hne
      have := hgo 0 (Nat.pos_of_ne_zero hne)
      simp [charsLen] at this
    simp [hzero]

theorem HuggingFaceTokenizer.Concatenative.stopKeep_cases {t : HuggingFaceTokenizer}
    (h : t.Concatenative piece) (r : Request) (out : List TokenId) :
    (StopFree r.params.stop (String.join (out.map piece)).toList ∧
        (r.withOutput out).stopKeep t = none) ∨
      ∃ k, FirstStopAt r.params.stop (String.join (out.map piece)).toList k ∧
        (r.withOutput out).stopKeep t = some (tokensBeforeChar out t
          (charsLen ((String.join (out.map piece)).toList.take k))) := by
  have hdecode : TokenizerTrait.tryDecode t out = .ok (String.join (out.map piece)) := h out
  rw [Request.stopKeep_eq hdecode]
  cases hfind : findStopSequence (String.join (out.map piece)) r.params.stop with
  | none => exact .inl ⟨findStopSequence_eq_none.1 hfind, rfl⟩
  | some offset =>
      obtain ⟨k, hk, rfl⟩ := findStopSequence_eq_some hfind
      exact .inr ⟨k, hk, rfl⟩

theorem Setting.Allows.retained_iff_buffered (hpiece : x.tokenizer.Concatenative piece)
    (h : x.Allows r out texts (.reported report : Place BufferedDecoder))
    (hsuccess : report.success = true) :
    report.Retained texts ↔
      StopFree r.params.stop (String.join (out.map piece)).toList ∨
        x.finishes (r.withOutput out) = false ∧
          FirstStopAt r.params.stop (String.join (out.map piece)).toList 0 := by
  obtain ⟨req, decoder, before, hended, hcompleted, htext, -, rfl⟩ := h.of_success hsuccess
  have hnone (tokens : List TokenId) :
      (x.decoded tokens : List String × BufferedDecoder).1 = [] := by
    rw [decoded, x.tokenizer.pushAll_createDecoder]
  have hdecode (tokens : List TokenId)
      (hok : TokenizerTrait.tryDecode x.tokenizer tokens = .ok report.outputText) :
      report.outputText = String.join (tokens.map piece) :=
    Except.ok.inj (hok.symm.trans (hpiece tokens))
  rw [CompletedRequest.Retained]
  cases hended with
  | failed reason _ _ => simp [Request.fail] at hcompleted
  | finished hreq hne _ hstop =>
      rw [hreq.outputTokens] at htext
      rw [decoded, x.tokenizer.decodesInPieces out hne _ htext]
      refine iff_of_true (List.prefix_refl _) (.inl ?_)
      rcases hpiece.stopKeep_cases r out with ⟨hfree, -⟩ | ⟨k, -, hkeep⟩
      · exact hfree
      · simp [hstop] at hkeep
  | finishedHit hreq _ hfin hstop =>
      rw [hreq.outputTokens] at htext
      rcases hpiece.stopKeep_cases r out with ⟨-, hno⟩ | ⟨k, hk, -⟩
      · simp [hstop] at hno
      · refine iff_of_false (fun hp => ?_) ?_
        · have hlt := hk.lt_length
          rw [hnone, tailText, hdecode out htext] at hp
          rw [List.append_nil, String.join_nil, String.toList_empty, List.prefix_nil] at hp
          simp [hp] at hlt
        · rintro (hfree | ⟨hopen, -⟩)
          · exact hk.not_stopFree hfree
          · simp [hfin] at hopen
  | stopped hreq _ hfin hstop =>
      rcases hpiece.stopKeep_cases r out with ⟨-, hno⟩ | ⟨k, hk, hkeep⟩
      · simp [hstop] at hno
      · rw [hstop, Option.some.injEq] at hkeep
        dsimp only at htext
        rw [hreq.outputTokens, hkeep] at htext
        rw [hnone, tailText, hdecode _ htext, List.append_nil, String.join_nil,
          String.toList_empty, List.prefix_nil, hpiece.kept_eq_nil_iff rfl hk.lt_length,
          or_iff_right hk.not_stopFree, and_iff_right hfin]
        exact ⟨fun hzero => hzero ▸ hk, fun h => h.unique hk⟩

end Buffered

/-! ## Runs -/

namespace Session

/-- Over the character decoder all of a successful output has been streamed unless its last
token tied; over a buffering decoder, only when no stop string was hit or the text of a
running request begins with one. -/
theorem retained_iff_of_reachable {σ : Type} [GPUExecutorTrait σ] {config : EngineConfig}
    {gpuExecutor : σ} {r : Request} {report : CompletedRequest} (hid : report.requestId = r.id)
    (hsuccess : report.success = true) :
    (∀ (tokenizer : SimpleTokenizer) (s : Session σ SimpleTokenizer SimpleDecoder),
        s.Reachable config tokenizer gpuExecutor → r ∈ s.admitted → report ∈ s.reports →
        (report.Retained (s.streamed r.id) ↔
          ¬ (settingOf config tokenizer).Ties r (s.generated r.id)
            (tokenizer.textOf (s.generated r.id)))) ∧
      ∀ (tokenizer : HuggingFaceTokenizer) (s : Session σ HuggingFaceTokenizer BufferedDecoder)
        (piece : TokenId → String), tokenizer.Concatenative piece →
        s.Reachable config tokenizer gpuExecutor → r ∈ s.admitted → report ∈ s.reports →
        (report.Retained (s.streamed r.id) ↔
          StopFree r.params.stop (String.join ((s.generated r.id).map piece)).toList ∨
            (settingOf config tokenizer).finishes (r.withOutput (s.generated r.id)) = false ∧
              FirstStopAt r.params.stop
                (String.join ((s.generated r.id).map piece)).toList 0) := by
  refine ⟨fun tokenizer s hs hr hreport => ?_, fun tokenizer s piece hpiece hs hr hreport => ?_⟩
  · obtain ⟨hgen, hallows⟩ := hs.inv_any.1.outcome hr hreport hid
    exact hallows.retained_iff_simple hgen hsuccess
  · exact (hs.inv_any.1.outcome hr hreport hid).2.retained_iff_buffered hpiece hsuccess

def letter (token : TokenId) : String := String.ofList [Char.ofNat token]

/-- A library with a token for each character. -/
def letterTokenizer : HuggingFaceTokenizer where
  inner :=
    { encode := fun text => .ok (text.toList.map Char.toNat)
      decode := fun tokens => .ok (String.join (tokens.map letter))
      vocabSize := 128
      tokenToId := fun _ => none }
  specialTokens := SimpleTokenizer.new.specialTokens

/-- Answers `a` to the first token and `b` to what follows. -/
def answerCut (fed : List TokenId) : TokenId := if fed.length = 1 then 97 else 98

def cutOps : List EngineOp :=
  [.submitRequest "x" { maxTokens := 3, stop := ["b"] }, .stepEvents, .stepEvents]

def cutRequest : Request := Request.new 1 [120] { maxTokens := 3, stop := ["b"] }

def cutReport : CompletedRequest where
  requestId := 1
  inputText := some "x"
  outputText := "a"
  outputTokens := [97]
  success := true
  error := none
  finishReason := some .stop
  logprobs := none

def cutSession : Session (FunctionBackend answerCut) HuggingFaceTokenizer BufferedDecoder :=
  (new smallConfig letterTokenizer ⟨fun _ => []⟩).run cutOps

theorem cutSession_reachable : cutSession.Reachable smallConfig letterTokenizer ⟨fun _ => []⟩ :=
  ⟨by decide +kernel, cutOps, rfl⟩

theorem retained_iff_of_reachable_cut :
    cutReport.Retained (cutSession.streamed 1) ↔
      StopFree ["b"] ['a', 'b'] ∨
        (settingOf smallConfig letterTokenizer).finishes (cutRequest.withOutput [97, 98]) = false ∧
          FirstStopAt ["b"] ['a', 'b'] 0 := by
  have hr : cutRequest ∈ cutSession.admitted := by decide +kernel
  have hreport : cutReport ∈ cutSession.reports := by decide +kernel
  have htokens : cutSession.generated 1 = [97, 98] := by decide +kernel
  have htext : (String.join ([97, 98].map letter)).toList = ['a', 'b'] := by decide +kernel
  rw [← htext, ← htokens]
  exact (retained_iff_of_reachable (r := cutRequest) rfl rfl).2 letterTokenizer cutSession letter
    (fun _ => rfl) cutSession_reachable hr hreport

/-- The decoder goes with the stop string, and the text it has buffered is never streamed. -/
theorem not_retained_cut :
    cutSession.Reachable smallConfig letterTokenizer ⟨fun _ => []⟩ ∧
      cutRequest ∈ cutSession.admitted ∧ cutReport ∈ cutSession.reports ∧
      ¬ cutReport.Retained (cutSession.streamed cutRequest.id) := by
  have hstreamed : cutSession.streamed 1 = [] := by decide +kernel
  refine ⟨cutSession_reachable, by decide +kernel, by decide +kernel, ?_⟩
  rw [show cutRequest.id = 1 from rfl, hstreamed]
  exact fun h => absurd (List.prefix_nil.1 h) (by decide)

end Session

end PagedServing
