import PagedServing.Engine.Course

/-! # What a course leads to

The invariant of a course: what has been generated for a request determines the
request that ends it, and what its decoder has been fed determines what was streamed.
-/

namespace PagedServing

open FixedWidth Relation

/-! ## Requests along a course -/

/-- `req` is `r` with the tokens `out` generated. -/
structure Request.After (r : Request) (out : List TokenId) (req : Request) : Prop where
  id : req.id = r.id
  inputTokens : req.inputTokens = r.inputTokens
  params : req.params = r.params
  outputTokens : req.outputTokens = out
  stopSequenceHit : req.stopSequenceHit = false

/-- What admission promises of a request. -/
structure Setting.Admits {τ : Type} (x : Setting τ) (r : Request) : Prop where
  fresh : r = Request.new r.id r.inputTokens r.params
  maxTokens_pos : 1 ≤ r.params.maxTokens.toNat
  fits : r.inputTokens.length + r.params.maxTokens.toNat ≤ x.config.maxModelLen.toNat

theorem Setting.Admits.after {τ : Type} {x : Setting τ} {r : Request} (hr : x.Admits r) :
    r.After [] r := by
  refine ⟨rfl, rfl, rfl, ?_, ?_⟩
  · rw [hr.fresh]
    rfl
  · rw [hr.fresh]
    rfl

/-- The request with these output tokens, for tests that only read the tokens. -/
def Request.withOutput (r : Request) (out : List TokenId) : Request := { r with outputTokens := out }

section Tests

variable {τ δ : Type} [TokenizerTrait τ δ] {x : Setting τ} {r req : Request} {out : List TokenId}

theorem Request.After.finishes (h : r.After out req) :
    x.finishes req = x.finishes (r.withOutput out) := by
  cases req
  obtain ⟨rfl, rfl, rfl, rfl, rfl⟩ := h
  rfl

theorem Request.After.stopKeep (h : r.After out req) :
    req.stopKeep x.tokenizer = (r.withOutput out).stopKeep x.tokenizer := by
  cases req
  obtain ⟨rfl, rfl, rfl, rfl, rfl⟩ := h
  rfl

/-- Generation goes on after `out`: no limit is reached and no stop string is hit. -/
structure Setting.Open (x : Setting τ) (r : Request) (out : List TokenId) : Prop where
  finishes : x.finishes (r.withOutput out) = false
  stopKeep : (r.withOutput out).stopKeep x.tokenizer = none

theorem Setting.length_lt_of_finishes (h : x.finishes (r.withOutput out) = false) :
    out.length < r.params.maxTokens.toNat := by
  by_contra hlen
  simp [Setting.finishes, Request.isFinished, Request.isComplete, Request.withOutput,
    Nat.le_of_not_lt hlen] at h

/-- Every token answers what was fed before it, and generation went on before each. -/
structure Setting.Generates (x : Setting τ) (answer : List TokenId → TokenId → Prop) (r : Request)
    (out : List TokenId) : Prop where
  answers : ∀ (k : Nat) (t : TokenId), out[k]? = some t → answer (r.inputTokens ++ out.take k) t
  opens : ∀ k, 1 ≤ k → k < out.length → x.Open r (out.take k)

variable {answer : List TokenId → TokenId → Prop}

theorem Setting.Generates.nil (x : Setting τ) (answer : List TokenId → TokenId → Prop)
    (r : Request) : x.Generates answer r [] := ⟨by simp, by simp⟩

theorem Setting.Generates.concat {token : TokenId} (h : x.Generates answer r out)
    (hopen : out ≠ [] → x.Open r out) (ha : answer (r.inputTokens ++ out) token) :
    x.Generates answer r (out ++ [token]) := by
  constructor
  · intro k t hk
    rcases lt_trichotomy k out.length with hlt | rfl | hgt
    · rw [List.getElem?_append_left hlt] at hk
      rw [List.take_append_of_le_length hlt.le]
      exact h.answers k t hk
    · rw [List.getElem?_concat_length, Option.some.injEq] at hk
      rw [List.take_left, ← hk]
      exact ha
    · rw [List.getElem?_eq_none (by simpa using hgt)] at hk
      simp at hk
  · intro k hpos hk
    rw [List.length_append, List.length_singleton] at hk
    rcases Nat.lt_or_eq_of_le (Nat.le_of_lt_succ hk) with hlt | rfl
    · rw [List.take_append_of_le_length hlt.le]
      exact h.opens k hpos hlt
    · rw [List.take_left]
      exact hopen (List.ne_nil_of_length_pos hpos)

end Tests

/-! ## Decoders along a course -/

section Decoders

variable {δ : Type} [IncrementalDecoder δ]

/-- What a decoder returns for a list of tokens, and the decoder afterwards. -/
def pushAll (decoder : δ) (tokens : List TokenId) : List String × δ :=
  tokens.foldl (fun acc token =>
    (acc.1 ++ pushedText (IncrementalDecoder.push acc.2 token).1,
      (IncrementalDecoder.push acc.2 token).2)) ([], decoder)

theorem pushAll_concat (decoder : δ) (tokens : List TokenId) (token : TokenId) :
    pushAll decoder (tokens ++ [token]) =
      ((pushAll decoder tokens).1 ++
          pushedText (IncrementalDecoder.push (pushAll decoder tokens).2 token).1,
        (IncrementalDecoder.push (pushAll decoder tokens).2 token).2) := by
  simp [pushAll, List.foldl_append]

end Decoders

/-! ## The invariant -/

section Law

variable {τ δ : Type} [IncrementalDecoder δ] [TokenizerTrait τ δ] {x : Setting τ}
  {answer : List TokenId → TokenId → Prop} {r : Request} {w w' : Course δ}

/-- What a decoder of this engine has returned for `out`, and that decoder. -/
def Setting.decoded (x : Setting τ) (out : List TokenId) : List String × δ :=
  pushAll (TokenizerTrait.createDecoder x.tokenizer) out

theorem Setting.decoded_concat (x : Setting τ) (out : List TokenId) (token : TokenId) :
    (x.decoded (out ++ [token]) : List String × δ) =
      ((x.decoded out).1 ++ pushedText (IncrementalDecoder.push (x.decoded out).2 token).1,
        (IncrementalDecoder.push (x.decoded out).2 token).2) :=
  pushAll_concat _ out token

/-- How a request can end after the tokens `out`: with its last state, the decoder it
leaves and the texts streamed for it. -/
inductive Setting.Ended (x : Setting τ) (r : Request) (out : List TokenId) :
    Request → Option δ → List String → Prop
  | failed {req : Request} (reason : String) (hreq : r.After out req)
      (hopen : out ≠ [] → x.Open r out) :
      Ended x r out (req.fail reason) (some (x.decoded out).2) (x.decoded out).1
  | finished {req : Request} (hreq : r.After out req) (hne : out ≠ [])
      (hfin : x.finishes (r.withOutput out) = true)
      (hstop : (r.withOutput out).stopKeep x.tokenizer = none) :
      Ended x r out { req with state := .completed } (some (x.decoded out).2) (x.decoded out).1
  | finishedHit {req : Request} {keep : Nat} (hreq : r.After out req) (hne : out ≠ [])
      (hfin : x.finishes (r.withOutput out) = true)
      (hstop : (r.withOutput out).stopKeep x.tokenizer = some keep) :
      Ended x r out { req with state := .completed } none (x.decoded out.dropLast).1
  | stopped {req : Request} {keep : Nat} (hreq : r.After out req) (hne : out ≠ [])
      (hfin : x.finishes (r.withOutput out) = false)
      (hstop : (r.withOutput out).stopKeep x.tokenizer = some keep) :
      Ended x r out
        { req with
          outputTokens := req.outputTokens.take keep
          logprobs := req.logprobs.take keep
          stopSequenceHit := true
          state := .completed }
        none (x.decoded out.dropLast).1

/-- A sequence and its decoder between two tokens of a course. -/
structure Setting.Between (x : Setting τ) (r : Request) (out : List TokenId) (seq : Sequence)
    (decoder : δ) (texts : List String) : Prop where
  after : r.After out seq.request
  opens : out ≠ [] → x.Open r out
  numGenerated : seq.numGeneratedTokens = out.length
  seqId : seq.seqId = r.id
  decoder : decoder = (x.decoded out).2
  texts : texts = (x.decoded out).1

theorem Setting.Between.length_lt {out : List TokenId} {seq : Sequence} {decoder : δ}
    {texts : List String} (hr : x.Admits r) (h : x.Between r out seq decoder texts) :
    out.length < r.params.maxTokens.toNat := by
  by_cases hout : out = []
  · rw [hout]
    exact hr.maxTokens_pos
  · exact length_lt_of_finishes (h.opens hout).finishes

/-- The tokens of a live sequence are counted without overflow. -/
theorem Setting.Between.contextLen {out : List TokenId} {seq : Sequence} {decoder : δ}
    {texts : List String} (hr : x.Admits r) (h : x.Between r out seq decoder texts) :
    seq.contextLen = r.inputTokens.length + out.length := by
  have hlen := h.length_lt hr
  have hfits := hr.fits
  have hmax := UInt32.toNat_lt x.config.maxModelLen
  rw [Sequence.contextLen, h.after.inputTokens, h.numGenerated, clampU32_of_lt (by omega),
    saturatingAdd_of_lt (by omega)]

/-- What each place says once `out` has been generated and `texts` streamed. -/
def Setting.Allows (x : Setting τ) (r : Request) (out : List TokenId) (texts : List String) :
    Place δ → Prop
  | .waiting decoder =>
      out = [] ∧ texts = [] ∧ decoder = TokenizerTrait.createDecoder x.tokenizer
  | .running seq decoder => out ≠ [] ∧ x.Between r out seq decoder texts
  | .ended req decoder => x.Ended r out req decoder texts
  | .reported report => ∃ req decoder before, x.Ended r out req decoder before ∧
      report = req.report x.tokenizer x.eosTokenId ∧ texts = before ++ x.reportTail req decoder

structure Course.Lawful (x : Setting τ) (answer : List TokenId → TokenId → Prop) (r : Request)
    (w : Course δ) : Prop where
  generates : x.Generates answer r w.generated
  place : x.Allows r w.generated w.texts w.place

namespace Course

theorem lawful_start (x : Setting τ) (answer : List TokenId → TokenId → Prop) (r : Request) :
    (start x : Course δ).Lawful x answer r := ⟨.nil x answer r, rfl, rfl, rfl⟩

/-- A live request can still be failed. -/
theorem allows_fail {out : List TokenId} {texts : List String} {place : Place δ} {req : Request}
    {decoder : δ} (hr : x.Admits r) (h : x.Allows r out texts place)
    (hl : place.Live r req decoder) (reason : String) :
    x.Ended r out (req.fail reason) (some decoder) texts := by
  cases hl with
  | waiting =>
      obtain ⟨rfl, rfl, rfl⟩ := h
      exact .failed reason hr.after fun h => absurd rfl h
  | running seq =>
      obtain ⟨-, hb⟩ := h
      rw [hb.texts, hb.decoder]
      exact .failed reason hb.after hb.opens

/-- What goes into a batch continues the course. -/
theorem between_of_scheduled {out : List TokenId} {texts : List String} {place : Place δ}
    {seq : Sequence} {entry : BatchEntry} {decoder : δ} (hr : x.Admits r)
    (h : x.Allows r out texts place) (hs : place.Scheduled x.config r seq entry decoder) :
    x.Between r out seq decoder texts := by
  cases hs with
  | start _ hblocks =>
      obtain ⟨rfl, rfl, rfl⟩ := h
      exact ⟨⟨rfl, rfl, rfl, hr.after.outputTokens, hr.after.stopSequenceHit⟩,
        fun h => absurd rfl h, rfl, rfl, rfl, rfl⟩
  | step _ hgrown =>
      obtain ⟨-, hb⟩ := h
      rcases hgrown with ⟨-, rfl⟩ | ⟨-, ref, rfl⟩
      · exact hb
      · exact ⟨hb.after, hb.opens, hb.numGenerated, hb.seqId, hb.decoder, hb.texts⟩

/-- A served token leaves the request where its place allows it. -/
theorem allows_settle {out : List TokenId} {seq : Sequence} {decoder : δ} {texts : List String}
    (hb : x.Between r out seq decoder texts) (row : OutputRow) :
    x.Allows r (out ++ [row.token]) (texts ++ (x.settle (seq.next row) decoder row.token).2)
      (x.settle (seq.next row) decoder row.token).1 := by
  have hafter : r.After (out ++ [row.token]) (seq.next row).request :=
    ⟨hb.after.id, hb.after.inputTokens, hb.after.params,
      congrArg (· ++ [row.token]) hb.after.outputTokens, hb.after.stopSequenceHit⟩
  have hne : out ++ [row.token] ≠ [] := by simp
  have hbefore : texts = (x.decoded (out ++ [row.token]).dropLast : List String × δ).1 := by
    rw [List.dropLast_concat, hb.texts]
  have htexts : texts ++ pushedText (IncrementalDecoder.push decoder row.token).1 =
      (x.decoded (out ++ [row.token]) : List String × δ).1 := by
    rw [x.decoded_concat, hb.texts, hb.decoder]
  have hdecoder : (IncrementalDecoder.push decoder row.token).2 =
      (x.decoded (out ++ [row.token])).2 := by
    rw [x.decoded_concat, hb.decoder]
  cases hfin : x.finishes (seq.next row).request with
  | true =>
      cases hstop : (seq.next row).request.stopKeep x.tokenizer with
      | some keep =>
          rw [Setting.settle_finished_hit decoder row.token hfin hstop, List.append_nil, hbefore]
          exact .finishedHit hafter hne (hafter.finishes.symm.trans hfin)
            (hafter.stopKeep.symm.trans hstop)
      | none =>
          rw [Setting.settle_finished decoder row.token hfin hstop, htexts, hdecoder]
          exact .finished hafter hne (hafter.finishes.symm.trans hfin)
            (hafter.stopKeep.symm.trans hstop)
  | false =>
      cases hstop : (seq.next row).request.stopKeep x.tokenizer with
      | some keep =>
          rw [Setting.settle_hit decoder row.token hfin hstop, List.append_nil, hbefore]
          exact .stopped hafter hne (hafter.finishes.symm.trans hfin)
            (hafter.stopKeep.symm.trans hstop)
      | none =>
          have hopen : x.Open r (out ++ [row.token]) :=
            ⟨hafter.finishes.symm.trans hfin, hafter.stopKeep.symm.trans hstop⟩
          rw [Setting.settle_open decoder row.token hfin hstop, htexts, hdecoder]
          cases (IncrementalDecoder.push decoder row.token).1 with
          | ok pushed =>
              have hlen := Setting.length_lt_of_finishes hopen.finishes
              rw [List.length_append, List.length_singleton] at hlen
              have hnum : (seq.next row).numGeneratedTokens = (out ++ [row.token]).length := by
                rw [List.length_append, List.length_singleton, ← hb.numGenerated]
                exact asU32_of_lt ((hb.numGenerated ▸ hlen).trans (UInt32.toNat_lt _))
              exact ⟨hne, hafter, fun _ => hopen, hnum, hb.seqId, rfl, rfl⟩
          | error message => exact .failed _ hafter fun _ => hopen

theorem Step.lawful (hr : x.Admits r) (hw : w.Lawful x answer r) (h : Step x answer r w w') :
    w'.Lawful x answer r := by
  cases h with
  | abort reason h => exact ⟨hw.generates, allows_fail hr hw.place h reason⟩
  | fail reason h =>
      have hb := between_of_scheduled hr hw.place h
      refine ⟨hw.generates, ?_⟩
      rw [hb.decoder, hb.texts]
      exact .failed reason hb.after hb.opens
  | serve row h ha =>
      have hb := between_of_scheduled hr hw.place h
      rw [hb.after.inputTokens, hb.after.outputTokens] at ha
      exact ⟨hw.generates.concat hb.opens ha, allows_settle hb row⟩
  | @report req decoder h =>
      have hplace := hw.place
      rw [h] at hplace
      exact ⟨hw.generates, req, decoder, w.texts, hplace, rfl, rfl⟩

theorem Steps.lawful (hr : x.Admits r) (hw : w.Lawful x answer r) (h : Steps x answer r w w') :
    w'.Lawful x answer r := by
  induction h with
  | refl => exact hw
  | tail _ hstep ih => exact hstep.lawful hr ih

end Course

end Law

end PagedServing
