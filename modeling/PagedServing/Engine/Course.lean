import PagedServing.Engine.Batches
import PagedServing.Engine.State
import PagedServing.Scheduler.Turns
import PagedServing.Scheduler.Updates

/-! # The course of one request

One admitted request on its own, whatever happens to the others: it waits, runs,
ends and is reported. A step of a course says all that an engine can do to it, so
what is reported of a request is an invariant of these steps.
-/

namespace PagedServing

/-- What the course of every request of an engine depends on. -/
structure Setting (τ : Type) where
  config : EngineConfig
  tokenizer : τ
  eosTokenId : TokenId

def InferenceEngine.setting {σ τ δ : Type} (e : InferenceEngine σ τ δ) : Setting τ :=
  ⟨e.config, e.tokenizer, e.eosTokenId⟩

@[simp] theorem InferenceEngine.setting_config {σ τ δ : Type} (e : InferenceEngine σ τ δ) :
    e.setting.config = e.config := rfl

@[simp] theorem InferenceEngine.setting_tokenizer {σ τ δ : Type} (e : InferenceEngine σ τ δ) :
    e.setting.tokenizer = e.tokenizer := rfl

@[simp] theorem InferenceEngine.setting_eosTokenId {σ τ δ : Type} (e : InferenceEngine σ τ δ) :
    e.setting.eosTokenId = e.eosTokenId := rfl

/-- The completion test that a request of this engine is put to. -/
def Setting.finishes {τ : Type} (x : Setting τ) (req : Request) : Bool :=
  req.isFinished x.config.maxModelLen.toNat x.eosTokenId

inductive Place (δ : Type) where
  | waiting (decoder : δ)
  | running (seq : Sequence) (decoder : δ)
  | ended (req : Request) (decoder : Option δ)
  | reported (report : CompletedRequest)

/-- Where a request is, what the backend was given and answered for it, and the texts
that were streamed. -/
structure Course (δ : Type) where
  place : Place δ
  entries : List BatchEntry
  generated : List TokenId
  texts : List String

/-- A waiting or running request with its decoder. -/
inductive Place.Live {δ : Type} (r : Request) : Place δ → Request → δ → Prop
  | waiting (decoder : δ) : Live r (.waiting decoder) r decoder
  | running (seq : Sequence) (decoder : δ) : Live r (.running seq decoder) seq.request decoder

/-- A live request goes into a batch as the sequence `seq`, with the entry `entry`. -/
inductive Place.Scheduled {δ : Type} (config : EngineConfig) (r : Request) :
    Place δ → Sequence → BatchEntry → δ → Prop
  | start (decoder : δ) {blocks : List BlockIdx} (h : blocks.length = r.promptBlocks config) :
      Scheduled config r (.waiting decoder) (Scheduler.startedSequence ⟨r.id, r⟩ blocks)
        (Scheduler.startedSequence ⟨r.id, r⟩ blocks).prefillEntry decoder
  | step (decoder : δ) {seq seq' : Sequence} (h : seq.Grown config seq') :
      Scheduled config r (.running seq decoder) seq' seq'.feedEntry decoder

/-- The text of a chunk, when a decoder returns one. -/
def pushedText : Except String (Option String) → List String
  | .ok (some text) => if text.isEmpty then [] else [text]
  | _ => []

section Courses

variable {τ δ : Type} [IncrementalDecoder δ] [TokenizerTrait τ δ]

/-- The last text of a decoder that is still there. -/
def tailText : Option δ → List String
  | some decoder => pushedText (IncrementalDecoder.finish decoder).1
  | none => []

/-- Where a served sequence is after its token has gone through the update, the stop
check and the decoder, and what was streamed. -/
def Setting.settle (x : Setting τ) (seq : Sequence) (decoder : δ) (token : TokenId) :
    Place δ × List String :=
  let pushed := IncrementalDecoder.push decoder token
  if x.finishes seq.request then
    match seq.request.stopKeep x.tokenizer with
    | some _ => (.ended { seq.request with state := .completed } none, [])
    | none =>
        (.ended { seq.request with state := .completed } (some pushed.2), pushedText pushed.1)
  else
    match seq.request.stopKeep x.tokenizer with
    | some keep => (.ended { (seq.stopAt keep).request with state := .completed } none, [])
    | none =>
        match pushed.1 with
        | .ok _ => (.running seq pushed.2, pushedText pushed.1)
        | .error message =>
            (.ended (seq.request.fail (decodeFailed message)) (some pushed.2), [])

/-- The texts that leave with a terminal request. -/
def Setting.reportTail (x : Setting τ) (req : Request) (decoder : Option δ) : List String :=
  if (req.report x.tokenizer x.eosTokenId).success then tailText decoder else []

section Settle

variable {x : Setting τ} {seq : Sequence} {keep : Nat} (decoder : δ) (token : TokenId)

/-- The last token also completed a stop string. -/
theorem Setting.settle_finished_hit (hfin : x.finishes seq.request = true)
    (hstop : seq.request.stopKeep x.tokenizer = some keep) :
    x.settle seq decoder token = (.ended { seq.request with state := .completed } none, []) := by
  simp [settle, hfin, hstop]

theorem Setting.settle_finished (hfin : x.finishes seq.request = true)
    (hstop : seq.request.stopKeep x.tokenizer = none) :
    x.settle seq decoder token =
      (.ended { seq.request with state := .completed }
        (some (IncrementalDecoder.push decoder token).2),
        pushedText (IncrementalDecoder.push decoder token).1) := by
  simp [settle, hfin, hstop]

theorem Setting.settle_hit (hfin : x.finishes seq.request = false)
    (hstop : seq.request.stopKeep x.tokenizer = some keep) :
    x.settle seq decoder token =
      (.ended { (seq.stopAt keep).request with state := .completed } none, []) := by
  simp [settle, hfin, hstop]

theorem Setting.settle_open (hfin : x.finishes seq.request = false)
    (hstop : seq.request.stopKeep x.tokenizer = none) :
    x.settle seq decoder token =
      ((match (IncrementalDecoder.push decoder token).1 with
        | .ok _ => .running seq (IncrementalDecoder.push decoder token).2
        | .error message =>
            .ended (seq.request.fail (decodeFailed message))
              (some (IncrementalDecoder.push decoder token).2)),
        pushedText (IncrementalDecoder.push decoder token).1) := by
  cases hp : (IncrementalDecoder.push decoder token).1 <;>
    simp [settle, hfin, hstop, hp, pushedText]

end Settle

namespace Course

/-- The course of a request that has just been admitted. -/
def start (x : Setting τ) : Course δ :=
  ⟨.waiting (TokenizerTrait.createDecoder x.tokenizer), [], [], []⟩

inductive Step (x : Setting τ) (answer : List TokenId → TokenId → Prop) (r : Request) :
    Course δ → Course δ → Prop
  | abort {w : Course δ} {req : Request} {decoder : δ} (reason : String)
      (h : w.place.Live r req decoder) :
      Step x answer r w { w with place := .ended (req.fail reason) (some decoder) }
  | fail {w : Course δ} {seq : Sequence} {entry : BatchEntry} {decoder : δ} (reason : String)
      (h : w.place.Scheduled x.config r seq entry decoder) :
      Step x answer r w
        { w with
          place := .ended (seq.request.fail reason) (some decoder)
          entries := w.entries ++ [entry] }
  | serve {w : Course δ} {seq : Sequence} {entry : BatchEntry} {decoder : δ} (row : OutputRow)
      (h : w.place.Scheduled x.config r seq entry decoder)
      (ha : answer (seq.request.inputTokens ++ seq.request.outputTokens) row.token) :
      Step x answer r w
        { place := (x.settle (seq.next row) decoder row.token).1
          entries := w.entries ++ [entry]
          generated := w.generated ++ [row.token]
          texts := w.texts ++ (x.settle (seq.next row) decoder row.token).2 }
  | report {w : Course δ} {req : Request} {decoder : Option δ}
      (h : w.place = .ended req decoder) :
      Step x answer r w
        { w with
          place := .reported (req.report x.tokenizer x.eosTokenId)
          texts := w.texts ++ x.reportTail req decoder }

abbrev Steps (x : Setting τ) (answer : List TokenId → TokenId → Prop) (r : Request) :
    Course δ → Course δ → Prop :=
  Relation.ReflTransGen (Step x answer r)

/-- A course ends with its report. -/
theorem Step.place_ne_reported {x : Setting τ} {answer : List TokenId → TokenId → Prop} {r : Request}
    {w w' : Course δ} (h : Step x answer r w w') (report : CompletedRequest) :
    w.place ≠ .reported report := by
  intro hplace
  cases h with
  | abort _ h => rw [hplace] at h; cases h
  | fail _ h => rw [hplace] at h; cases h
  | serve _ h _ => rw [hplace] at h; cases h
  | report h => rw [hplace] at h; cases h

theorem Steps.eq_of_reported {x : Setting τ} {answer : List TokenId → TokenId → Prop} {r : Request}
    {w w' : Course δ} {report : CompletedRequest} (h : Steps x answer r w w')
    (hplace : w.place = .reported report) : w' = w := by
  rcases Relation.ReflTransGen.cases_head h with rfl | ⟨_, hstep, -⟩
  · rfl
  · exact absurd hplace (hstep.place_ne_reported report)

end Course

end Courses

end PagedServing
