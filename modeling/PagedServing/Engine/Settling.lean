import PagedServing.Engine.Stages
import PagedServing.Library.LabelledLog

/-! # The end of a step, from one request

The stop check, the decoders and the collection, followed for one request: where it
is held afterwards and which texts were streamed under its id.
-/

namespace PagedServing

open Scheduler Relation LabelledLog

/-! ## Texts of one request -/

def textsOf (chunks : List StepChunk) (id : RequestId) : List String :=
  (under id chunks).map Prod.fst

theorem textsOf_append (chunks more : List StepChunk) (id : RequestId) :
    textsOf (chunks ++ more) id = textsOf chunks id ++ textsOf more id := by
  rw [textsOf, under_append, List.map_append]
  rfl

theorem textsOf_of_texts {chunks : List StepChunk} {texts : List (RequestId × String)}
    (h : chunks.map (fun c => (c.1, c.2.1)) = texts) (id : RequestId) :
    textsOf chunks id = under id texts := by
  rw [← h]
  exact (under_map (fun _ (c : String × Option TokenLogprobs) => c.1) id chunks).symm

namespace InferenceEngine

variable {σ τ δ : Type} {e e' e'' : InferenceEngine σ τ δ} {r : Request} {place : Place δ}

/-- An engine holds a request at the given place of its course. -/
def HoldsAt (e : InferenceEngine σ τ δ) (r : Request) : Place δ → Prop
  | .waiting decoder =>
      e.scheduler.Holds r.id (.pending r) ∧ e.decoders[r.id]? = some decoder
  | .running seq decoder =>
      e.scheduler.Holds r.id (.decode seq) ∧ e.decoders[r.id]? = some decoder
  | .ended req decoder =>
      e.scheduler.Holds r.id (.completed req) ∧ e.decoders[r.id]? = decoder
  | .reported _ => r.id ∉ e.scheduler.ids ∧ e.decoders[r.id]? = none

/-- A place is kept by whatever leaves the request and its decoder alone. -/
theorem HoldsAt.of_same (h : e.HoldsAt r place)
    (hs : ∀ held, e.scheduler.Holds r.id held ↔ e'.scheduler.Holds r.id held)
    (hd : e'.decoders[r.id]? = e.decoders[r.id]?) : e'.HoldsAt r place := by
  have hids : r.id ∈ e.scheduler.ids ↔ r.id ∈ e'.scheduler.ids := by
    rw [mem_ids_iff, mem_ids_iff]
    exact exists_congr hs
  cases place with
  | waiting decoder => exact ⟨(hs _).1 h.1, hd.trans h.2⟩
  | running seq decoder => exact ⟨(hs _).1 h.1, hd.trans h.2⟩
  | ended req decoder => exact ⟨(hs _).1 h.1, hd.trans h.2⟩
  | reported report => exact ⟨fun hmem => h.1 (hids.2 hmem), hd.trans h.2⟩

/-- The request keeps its place or is failed there. -/
def Keeps (e : InferenceEngine σ τ δ) (r : Request) (place : Place δ) : Prop :=
  e.HoldsAt r place ∨ ∃ req decoder reason, place.Live r req decoder ∧
    e.HoldsAt r (.ended (req.fail reason) (some decoder))

theorem Keeps.of_same (h : e.Keeps r place)
    (hs : ∀ held, e.scheduler.Holds r.id held ↔ e'.scheduler.Holds r.id held)
    (hd : e'.decoders[r.id]? = e.decoders[r.id]?) : e'.Keeps r place := by
  rcases h with h | ⟨req, d, reason, hlive, h⟩
  · exact .inl (h.of_same hs hd)
  · exact .inr ⟨req, d, reason, hlive, h.of_same hs hd⟩

theorem Keeps.map (h : e.Keeps r place)
    (hmap : ∀ place, e.HoldsAt r place → e'.HoldsAt r place) : e'.Keeps r place := by
  rcases h with h | ⟨req, d, reason, hlive, h⟩
  · exact .inl (hmap _ h)
  · exact .inr ⟨req, d, reason, hlive, hmap _ h⟩

theorem failByRequestId_keeps (hs : e.scheduler.Sound) (a : RequestId) (reason : String) :
    ∀ r place, e.HoldsAt r place →
      Keeps { e with scheduler := (e.scheduler.failByRequestId a reason).2 } r place := by
  intro r place h
  rw [failByRequestId_eq hs]
  split
  next => exact .inl h
  next hlive =>
    rcases eq_or_ne a r.id with rfl | hne
    · cases place with
      | waiting d =>
          exact .inr ⟨_, _, reason, .waiting d, failSequence_holds_pending hs.wf h.1 reason, h.2⟩
      | running seq d =>
          exact .inr ⟨_, _, reason, .running seq d,
            failSequence_holds_active hs.wf (hs.wf.active_of_holds h.1) reason, h.2⟩
      | ended req d =>
          exact absurd ⟨hs.wf.active_of_holds h.1, not_pending_of_completed hs.wf h.1⟩ hlive
      | reported report =>
          refine absurd ⟨?_, fun p hp heq => h.1 (heq ▸ mem_ids_iff.2 ⟨_, .pending hp⟩)⟩ hlive
          exact active_none_of_not_mem_ids h.1
    · exact .inl (h.of_same (fun _ => (failSequence_holds_ne hs.wf hne reason).symm) rfl)

theorem failPendingRequests_keeps (hs : e.scheduler.Sound) (reason : String) :
    ∀ r place, e.HoldsAt r place →
      Keeps { e with scheduler := (e.scheduler.failPendingRequests reason).2 } r place := by
  intro r place h
  cases place with
  | waiting d =>
      exact .inr ⟨_, _, _, .waiting d,
        (failPendingRequests_holds reason).2 (.inr ⟨r, h.1, rfl⟩), h.2⟩
  | running seq d => exact .inl ⟨(failPendingRequests_holds reason).2 h.1, h.2⟩
  | ended req d => exact .inl ⟨(failPendingRequests_holds reason).2 (.inl h.1), h.2⟩
  | reported report =>
      have hids := (Moves.evolves hs.wf (failPendingRequests_moves e.scheduler reason)).ids
      exact .inl ⟨fun hmem => h.1 (hids.mem_iff.1 hmem), h.2⟩

/-- A request that is in the completed buffer has ended. -/
theorem HoldsAt.eq_ended {q : Request} (hw : e.scheduler.Wf) (h : e.HoldsAt r place)
    (hq : e.scheduler.Holds r.id (.completed q)) : place = .ended q e.decoders[r.id]? := by
  cases place with
  | waiting d => exact absurd (hw.holds_unique h.1 hq) (by simp)
  | running seq d => exact absurd (hw.holds_unique h.1 hq) (by simp)
  | ended req d =>
      have heq := hw.holds_unique h.1 hq
      rw [Held.completed.injEq] at heq
      rw [heq, h.2]
  | reported report => exact absurd (mem_ids_iff.2 ⟨_, hq⟩) h.1

variable {generated : List (RequestId × TokenId)} {chunks : List StepChunk}

/-! ## Requests without a token in this step -/

private theorem not_mem_of_none {β : Type} {items : List β} {key : β → Nat}
    {f : β → Option Request} {id : Nat} (h : ∀ x ∈ items, key x = id → f x = none) :
    id ∉ (items.filterMap fun x => (f x).map (Prod.mk (key x))).map Prod.fst := by
  intro hmem
  obtain ⟨p, hp, rfl⟩ := List.mem_map.1 hmem
  obtain ⟨x, hx, hp⟩ := List.mem_filterMap.1 hp
  obtain ⟨q, hq, rfl⟩ := Option.map_eq_some_iff.1 hp
  simp [h x hx rfl] at hq

private theorem absurd_key {β : Type} {items : List β} {key : β → Nat} {id : Nat}
    {P : β → Prop} (h : id ∉ items.map key) : ∀ x ∈ items, key x = id → P x :=
  fun _ hx heq => absurd (List.mem_map.2 ⟨_, hx, heq⟩) h

theorem Stopped.holdsAt_of_not_mem {cuts : List (RequestId × Nat)} (h : e.Stopped cuts e')
    (hid : r.id ∉ cuts.map Prod.fst) (hr : e.HoldsAt r place) : e'.HoldsAt r place :=
  hr.of_same (fun _ => (h.removed.holds_of_not_mem (not_mem_of_none (absurd_key hid))).symm)
    (by rw [h.decoders, if_neg hid])

/-- A stop hit completes a running request. -/
theorem Stopped.holdsAt_of_active {cuts : List (RequestId × Nat)} {seq : Sequence} {keep : Nat}
    (h : e.Stopped cuts e') (hid : (r.id, keep) ∈ cuts) (hseq : e.scheduler.active r.id = some seq) :
    e'.HoldsAt r (.ended { (seq.stopAt keep).request with state := .completed } none) := by
  refine ⟨h.removed.holds_of_mem (List.mem_filterMap.2 ⟨(r.id, keep), hid, ?_⟩), ?_⟩
  · simp [hseq]
  · rw [h.decoders, if_pos (List.mem_map_of_mem hid)]

/-- A stop hit only takes the decoder of a request that has ended. -/
theorem Stopped.holdsAt_of_ended {cuts : List (RequestId × Nat)} {q : Request} (hw : e.scheduler.Wf)
    (h : e.Stopped cuts e') (hid : r.id ∈ cuts.map Prod.fst)
    (hq : e.scheduler.Holds r.id (.completed q)) : e'.HoldsAt r (.ended q none) := by
  refine ⟨(h.removed.holds_of_not_mem (not_mem_of_none ?_)).2 hq, by rw [h.decoders, if_pos hid]⟩
  intro cut _ hcut
  rw [hcut, hw.active_of_holds hq]
  rfl

section Decoders

variable [IncrementalDecoder δ]

theorem Pushed.holdsAt_of_not_mem (h : e.Pushed generated e' chunks)
    (hid : r.id ∉ generated.map Prod.fst) (hr : e.HoldsAt r place) : e'.HoldsAt r place :=
  hr.of_same (fun _ => (h.removed.holds_of_not_mem (not_mem_of_none (absurd_key hid))).symm)
    (by rw [h.decoders, IdMap.lookup_eq_none_of_not_mem hid])

theorem Pushed.texts_of_mem (h : e.Pushed generated e' chunks)
    (hnodup : (generated.map Prod.fst).Nodup) {id : RequestId} {token : TokenId}
    (hg : (id, token) ∈ generated) : textsOf chunks id = pushText e.decoders[id]? token :=
  (textsOf_of_texts h.texts id).trans (under_flatMap_of_mem hnodup hg)

/-- A request that has ended only has its decoder fed, if that is still there. -/
theorem Pushed.holdsAt_of_ended {q : Request} {d : Option δ} {token : TokenId}
    (hw : e.scheduler.Wf) (h : e.Pushed generated e' chunks)
    (hlookup : generated.lookup r.id = some token) (hr : e.HoldsAt r (.ended q d)) :
    e'.HoldsAt r (.ended q (d.map fun d => (IncrementalDecoder.push d token).2)) := by
  refine ⟨(h.removed.holds_of_not_mem (not_mem_of_none ?_)).2 hr.1, ?_⟩
  · intro g _ hg
    rw [hg, hw.active_of_holds hr.1]
    rfl
  · rw [h.decoders, hlookup, hr.2]

/-- A running request goes on, or is failed by its decoder. -/
theorem Pushed.holdsAt_of_running {seq : Sequence} {d : δ} {token : TokenId}
    (hw : e.scheduler.Wf) (h : e.Pushed generated e' chunks)
    (hnodup : (generated.map Prod.fst).Nodup) (hg : (r.id, token) ∈ generated)
    (hr : e.HoldsAt r (.running seq d)) :
    e'.HoldsAt r (match (IncrementalDecoder.push d token).1 with
      | .ok _ => .running seq (IncrementalDecoder.push d token).2
      | .error message =>
          .ended (seq.request.fail (decodeFailed message))
            (some (IncrementalDecoder.push d token).2)) := by
  have hdecoder := h.decoders r.id
  rw [IdMap.lookup_eq_some_of_mem hnodup hg, hr.2] at hdecoder
  have hactive := hw.active_of_holds hr.1
  cases hpush : (IncrementalDecoder.push d token).1 with
  | ok pushed =>
      refine ⟨(h.removed.holds_of_not_mem (not_mem_of_none ?_)).2 hr.1, hdecoder⟩
      intro g hmem heq
      have htoken : g.2 = token := by
        have := IdMap.lookup_eq_some_of_mem hnodup (show (g.1, g.2) ∈ generated from hmem)
        rw [heq, IdMap.lookup_eq_some_of_mem hnodup hg] at this
        exact (Option.some.inj this).symm
      rw [heq, hactive, hr.2, htoken]
      simp [pushFailure, hpush]
  | error message =>
      refine ⟨h.removed.holds_of_mem (List.mem_filterMap.2 ⟨_, hg, ?_⟩), hdecoder⟩
      simp [hactive, hr.2, pushFailure, hpush]

end Decoders

/-! ## Requests with a token in this step -/

section Tokens

variable [TokenizerTrait τ δ]

theorem mem_toStop {id : RequestId} :
    id ∈ (e.toStop generated).map Prod.fst ↔
      id ∈ generated.map Prod.fst ∧ ∃ keep, e.stopCut id = some keep := by
  simp only [toStop, List.mem_map, List.mem_filterMap, Option.map_eq_some_iff]
  constructor
  · rintro ⟨p, ⟨g, hg, keep, hkeep, rfl⟩, rfl⟩
    exact ⟨⟨g, hg, rfl⟩, keep, hkeep⟩
  · rintro ⟨⟨g, hg, rfl⟩, keep, hkeep⟩
    exact ⟨(g.1, keep), ⟨g, hg, keep, hkeep, rfl⟩, rfl⟩

theorem toStop_nodup (h : (generated.map Prod.fst).Nodup) :
    ((e.toStop generated).map Prod.fst).Nodup := by
  refine List.pairwise_map.2 ((List.pairwise_map.1 h).filterMap _ ?_)
  intro g g' hne p hp p' hp'
  obtain ⟨_, -, rfl⟩ := Option.map_eq_some_iff.1 hp
  obtain ⟨_, -, rfl⟩ := Option.map_eq_some_iff.1 hp'
  exact hne

/-- A sequence that has just been updated: completed when it is finished. -/
def Served (e : InferenceEngine σ τ δ) (id : RequestId) (seq : Sequence) : Prop :=
  e.scheduler.Holds id
    (if e.setting.finishes seq.request then .completed { seq.request with state := .completed }
      else .decode seq)

theorem stopCut_of_served {seq : Sequence} (hs : e.scheduler.Sound) {id : RequestId}
    (h : e.Served id seq) : e.stopCut id = seq.request.stopKeep e.tokenizer := by
  rw [Served] at h
  rw [stopCut]
  split at h
  · rw [getRequestById_of_completed hs.wf hs.labelled h]
    rfl
  · rw [getRequestById_of_active hs.wf hs.labelled (hs.wf.active_of_holds h)]
    rfl

/-- The stop check and the decoder settle a served sequence. -/
theorem holdsAt_settle [IncrementalDecoder δ] {seq : Sequence} {d : δ} {token : TokenId}
    (hs : e.scheduler.Sound) (hnodup : (generated.map Prod.fst).Nodup)
    (hg : (r.id, token) ∈ generated) (hserved : e.Served r.id seq)
    (hd : e.decoders[r.id]? = some d) (hstop : e.Stopped (e.toStop generated) e')
    (hpush : e'.Pushed generated e'' chunks) :
    e''.HoldsAt r (e.setting.settle seq d token).1 ∧
      textsOf chunks r.id = (e.setting.settle seq d token).2 := by
  have hcut := stopCut_of_served hs hserved
  have hlookup := IdMap.lookup_eq_some_of_mem hnodup hg
  have htexts := hpush.texts_of_mem hnodup hg
  have hw' := (hs.moves hstop.removed.moves).wf
  have hkey : r.id ∈ generated.map Prod.fst := List.mem_map_of_mem hg
  rw [Served] at hserved
  cases hkeep : seq.request.stopKeep e.tokenizer with
  | some keep =>
      have hmem : (r.id, keep) ∈ e.toStop generated :=
        List.mem_filterMap.2 ⟨_, hg, by simp [hcut, hkeep]⟩
      have hended : ∀ q, e'.HoldsAt r (.ended q none) →
          e''.HoldsAt r (.ended q none) ∧ textsOf chunks r.id = [] := fun q hq =>
        ⟨hpush.holdsAt_of_ended hw' hlookup hq, by rw [htexts, hq.2]; rfl⟩
      cases hfin : e.setting.finishes seq.request with
      | true =>
          rw [hfin, if_pos rfl] at hserved
          rw [Setting.settle_finished_hit d token hfin hkeep]
          exact hended _ (hstop.holdsAt_of_ended hs.wf (List.mem_map_of_mem hmem) hserved)
      | false =>
          rw [hfin, if_neg Bool.false_ne_true] at hserved
          rw [Setting.settle_hit d token hfin hkeep]
          exact hended _ (hstop.holdsAt_of_active hmem (hs.wf.active_of_holds hserved))
  | none =>
      have hno : r.id ∉ (e.toStop generated).map Prod.fst := by
        intro hmem
        obtain ⟨-, keep, hsome⟩ := mem_toStop.1 hmem
        rw [hcut, hkeep] at hsome
        simp at hsome
      have hd' : e'.decoders[r.id]? = some d := by rw [hstop.decoders, if_neg hno, hd]
      rw [hd'] at htexts
      cases hfin : e.setting.finishes seq.request with
      | true =>
          rw [hfin, if_pos rfl] at hserved
          have hr : e.HoldsAt r (.ended { seq.request with state := .completed } (some d)) :=
            ⟨hserved, hd⟩
          rw [Setting.settle_finished d token hfin hkeep]
          exact ⟨hpush.holdsAt_of_ended hw' hlookup (hstop.holdsAt_of_not_mem hno hr), htexts⟩
      | false =>
          rw [hfin, if_neg Bool.false_ne_true] at hserved
          have hr : e.HoldsAt r (.running seq d) := ⟨hserved, hd⟩
          rw [Setting.settle_open d token hfin hkeep]
          exact ⟨hpush.holdsAt_of_running hw' hnodup hg (hstop.holdsAt_of_not_mem hno hr), htexts⟩

end Tokens

end InferenceEngine

end PagedServing
