import PagedServing.Server.StreamMulti

/-! # What a stream of several candidates yields

Up to the last report the loop has yielded the chunks it has received. The reports it has
received are of different candidates, so their number tells whether all have come.
-/

namespace PagedServing

open Relation LabelledLog

/-! ## Chunks and reports in what has been received -/

def RequestEvent.asChunk : RequestEvent → Option (String × Option TokenLogprobs)
  | .chunk text logprobs => some (text, logprobs)
  | .done _ => none

def RequestEvent.asReport : RequestEvent → Option CompletedRequest
  | .chunk _ _ => none
  | .done completed => some completed

/-- Chunks with the index of their candidate. -/
abbrev ChunkLog := List (Nat × String × Option TokenLogprobs)

def chunksIn (taken : List (Nat × RequestEvent)) : ChunkLog :=
  taken.filterMap fun p => p.2.asChunk.map (Prod.mk p.1)

def reportsIn (taken : List (Nat × RequestEvent)) : List (Nat × CompletedRequest) :=
  taken.filterMap fun p => p.2.asReport.map (Prod.mk p.1)

variable {taken : List (Nat × RequestEvent)} {i : Nat} {c : Candidate} {candidates : List Candidate}
  {report : CompletedRequest} {f : FanIn RequestEvent}

theorem chunksIn_append (taken more : List (Nat × RequestEvent)) :
    chunksIn (taken ++ more) = chunksIn taken ++ chunksIn more := List.filterMap_append

theorem reportsIn_append (taken more : List (Nat × RequestEvent)) :
    reportsIn (taken ++ more) = reportsIn taken ++ reportsIn more := List.filterMap_append

theorem mem_reportsIn : (i, report) ∈ reportsIn taken ↔ (i, RequestEvent.done report) ∈ taken := by
  rw [← mem_under, reportsIn, under_filterMap, List.mem_filterMap, ← mem_under]
  constructor
  · rintro ⟨event, hevent, h⟩
    cases event with
    | chunk => cases h
    | done => exact Option.some.inj h ▸ hevent
  · exact fun h => ⟨_, h, rfl⟩

namespace Candidate

theorem events_chunks (c : Candidate) : c.events.filterMap RequestEvent.asChunk = c.chunks := by
  have hchunk : (RequestEvent.asChunk ∘ fun p => RequestEvent.chunk p.1 p.2) = some := rfl
  have hdone : RequestEvent.asChunk ∘ RequestEvent.done = fun _ => none := rfl
  rw [events, chunkEvents, List.filterMap_append, List.filterMap_map, List.filterMap_map, hchunk,
    hdone, List.filterMap_some, List.filterMap_none, List.append_nil]

theorem events_reports (c : Candidate) :
    c.events.filterMap RequestEvent.asReport = c.report.toList := by
  have hchunk : (RequestEvent.asReport ∘ fun p : String × Option TokenLogprobs =>
      RequestEvent.chunk p.1 p.2) = fun _ => none := rfl
  have hdone : RequestEvent.asReport ∘ RequestEvent.done = some := rfl
  rw [events, chunkEvents, List.filterMap_append, List.filterMap_map, List.filterMap_map, hchunk,
    hdone, List.filterMap_some, List.filterMap_none, List.nil_append]

/-- A report is the last event. -/
theorem eq_events_of_done {events : List RequestEvent} (h : events <+: c.events)
    (hdone : .done report ∈ events) : events = c.events ∧ c.report = some report := by
  have hchunks : ∀ {before : List RequestEvent}, before <+: chunkEvents c.chunks →
      .done report ∉ before := by
    intro before hbefore hmem
    obtain ⟨chunk, -, heq⟩ := List.mem_map.1 (hbefore.subset hmem)
    cases heq
  cases hreport : c.report with
  | none =>
      rw [Candidate.events, hreport, Option.toList_none, List.map_nil, List.append_nil] at h
      exact absurd hdone (hchunks h)
  | some last =>
      have hall : c.events = chunkEvents c.chunks ++ [.done last] := by
        rw [Candidate.events, hreport]
        rfl
      rw [hall] at h ⊢
      rcases List.prefix_concat_iff.1 h with rfl | h
      · have hlast := List.mem_append.1 hdone |>.resolve_left (hchunks List.prefix_rfl)
        exact ⟨rfl, by cases List.mem_singleton.1 hlast; rfl⟩
      · exact absurd hdone (hchunks h)

def Succeeds (c : Candidate) : Prop := ∃ report, c.report = some report ∧ report.success = true

def finishReason (c : Candidate) : String :=
  ((c.report.bind (·.finishReason)).getD .stop).asStr

/-- The length of its output. -/
def tokens (c : Candidate) : Nat := (c.report.map (·.outputTokens.length)).getD 0

end Candidate

/-! ## What has been received from each candidate -/

theorem received_begins (h : f.Accounts (candidates.map Candidate.events) taken)
    (hc : candidates[i]? = some c) : under i taken <+: c.events :=
  h.prefix_script (by rw [List.getElem?_map, hc]; rfl)

theorem received_chunks (h : f.Accounts (candidates.map Candidate.events) taken)
    (hc : candidates[i]? = some c) : under i (chunksIn taken) <+: c.chunks := by
  rw [chunksIn, under_filterMap, ← c.events_chunks]
  exact (received_begins h hc).filterMap _

theorem received_report (h : f.Accounts (candidates.map Candidate.events) taken)
    (hmem : (i, report) ∈ reportsIn taken) :
    ∃ c, candidates[i]? = some c ∧ c.report = some report ∧ under i (chunksIn taken) = c.chunks := by
  have hdone := mem_reportsIn.1 hmem
  have hlt := h.labels _ (List.mem_append_left _ hdone)
  rw [List.length_map] at hlt
  have hc := List.getElem?_eq_getElem hlt
  obtain ⟨hall, hreport⟩ :=
    Candidate.eq_events_of_done (received_begins h hc) (mem_under.2 hdone)
  refine ⟨_, hc, hreport, ?_⟩
  rw [chunksIn, under_filterMap, hall, Candidate.events_chunks]

theorem received_keys (h : f.Accounts (candidates.map Candidate.events) taken) :
    ((reportsIn taken).map Prod.fst).Nodup := by
  refine nodup_of_length_under_le fun i => ?_
  cases hc : candidates[i]? with
  | none =>
      rw [under_eq_nil]
      · exact Nat.zero_le _
      · intro hmem
        obtain ⟨⟨_, report⟩, hreport, rfl⟩ := List.mem_map.1 hmem
        obtain ⟨c, hc', -⟩ := received_report h hreport
        rw [hc] at hc'
        cases hc'
  | some c =>
      rw [reportsIn, under_filterMap]
      refine ((received_begins h hc).filterMap _).length_le.trans ?_
      rw [Candidate.events_reports]
      exact Option.length_toList_le

/-- With as many reports as candidates every candidate has reported. -/
theorem received_all (h : f.Accounts (candidates.map Candidate.events) taken)
    (hcount : (reportsIn taken).length = candidates.length) (hc : candidates[i]? = some c) :
    ∃ report, (i, report) ∈ reportsIn taken := by
  have hsub : (reportsIn taken).map Prod.fst ⊆ List.range candidates.length := by
    intro j hj
    obtain ⟨⟨_, report⟩, hreport, rfl⟩ := List.mem_map.1 hj
    obtain ⟨c, hc, -⟩ := received_report h hreport
    exact List.mem_range.2 (List.getElem?_eq_some_iff.1 hc).1
  have hperm := (List.subperm_of_subset (received_keys h) hsub).perm_of_length_le
    (by rw [List.length_range, List.length_map, hcount])
  have hi := hperm.mem_iff.2 (List.mem_range.2 (List.getElem?_eq_some_iff.1 hc).1)
  obtain ⟨⟨_, report⟩, hreport, rfl⟩ := List.mem_map.1 hi
  exact ⟨report, hreport⟩

/-- Every candidate that has reported is counted. -/
theorem length_le_of_all (hall : ∀ i c, candidates[i]? = some c →
    ∃ report, (i, report) ∈ reportsIn taken) : candidates.length ≤ (reportsIn taken).length := by
  have hsub : List.range candidates.length ⊆ (reportsIn taken).map Prod.fst := by
    intro i hi
    obtain ⟨report, hreport⟩ := hall i _ (List.getElem?_eq_getElem (List.mem_range.1 hi))
    exact List.mem_map_of_mem hreport
  have hle := (List.subperm_of_subset List.nodup_range hsub).length_le
  rwa [List.length_range, List.length_map] at hle

/-! ## The locals of the loop -/

namespace MultiLocals

variable {l : MultiLocals} {n : Nat} {reports : List (Nat × CompletedRequest)}

/-- The locals after these reports, of which all were successful. -/
structure Tallies (l : MultiLocals) (n : Nat) (reports : List (Nat × CompletedRequest)) : Prop where
  failure : l.failure = none
  terminated : l.terminated = false
  remaining : l.remaining + reports.length = n
  finishReasons : l.finishReasons.length = n
  completionTokens : l.completionTokens.length = n
  entries : ∀ (i : Nat) (report : CompletedRequest), (i, report) ∈ reports →
    report.success = true ∧
      l.finishReasons[i]? = some (some (report.finishReason.getD .stop).asStr) ∧
      l.completionTokens[i]? = some report.outputTokens.length

theorem tallies_new (n : Nat) : (new n).Tallies n [] :=
  ⟨rfl, rfl, rfl, List.length_replicate, List.length_replicate, by rintro _ _ ⟨⟩⟩

theorem Tallies.complete (h : l.Tallies n reports) (hopen : 0 < l.remaining) (hi : i < n)
    (hnew : i ∉ reports.map Prod.fst) (hsuccess : report.success = true) :
    ({ l with remaining := l.remaining - 1 }.complete i report).Tallies n
      (reports ++ [(i, report)]) := by
  have hremaining := h.remaining
  refine ⟨h.failure, h.terminated, ?_, ?_, ?_, fun j other hmem => ?_⟩
  · rw [List.length_append, List.length_singleton]
    dsimp only [MultiLocals.complete]
    omega
  · exact List.length_set.trans h.finishReasons
  · exact List.length_set.trans h.completionTokens
  · rcases List.mem_append.1 hmem with hmem | hmem
    · have hne : i ≠ j := fun heq => hnew (heq ▸ List.mem_map_of_mem hmem)
      obtain ⟨hother, hreason, htokens⟩ := h.entries j other hmem
      exact ⟨hother, (List.getElem?_set_ne hne).trans hreason,
        (List.getElem?_set_ne hne).trans htokens⟩
    · obtain ⟨rfl, rfl⟩ := Prod.mk.inj (List.mem_singleton.1 hmem)
      exact ⟨hsuccess, List.getElem?_set_self (h.finishReasons ▸ hi),
        List.getElem?_set_self (h.completionTokens ▸ hi)⟩

private theorem eq_map_of_entries {α β : Type} {l : List α} {m : List β} {g : α → β}
    (hlength : m.length = l.length)
    (h : ∀ (i : Nat) (a : α), l[i]? = some a → m[i]? = some (g a)) : m = l.map g := by
  refine List.ext_getElem? fun i => ?_
  cases hl : l[i]? with
  | none =>
      rw [List.getElem?_map, hl]
      exact List.getElem?_eq_none (hlength ▸ List.getElem?_eq_none_iff.1 hl)
  | some a =>
      rw [List.getElem?_map, hl]
      exact h i a hl

/-- With a report of every candidate the locals have the entries of them all. -/
theorem Tallies.all (h : l.Tallies candidates.length reports)
    (hall : ∀ (i : Nat) (c : Candidate), candidates[i]? = some c →
      ∃ report, (i, report) ∈ reports ∧ c.report = some report) :
    l.finishReasons = candidates.map (fun c => some c.finishReason) ∧
      l.completionTokens = candidates.map Candidate.tokens := by
  constructor
  · refine eq_map_of_entries h.finishReasons fun i c hc => ?_
    obtain ⟨report, hreport, heq⟩ := hall i c hc
    rw [Candidate.finishReason, heq]
    exact (h.entries i report hreport).2.1
  · refine eq_map_of_entries h.completionTokens fun i c hc => ?_
    obtain ⟨report, hreport, heq⟩ := hall i c hc
    rw [Candidate.tokens, heq]
    exact (h.entries i report hreport).2.2

end MultiLocals

/-! ## What the stream yields -/

def SseData.contentAt (i : Nat) : SseData → String
  | .payload p => (p.choices[i]?.map (·.body.content)).getD ""
  | _ => ""

namespace StreamSetting

variable {τ δ : Type} [TokenizerTrait τ δ] (x : StreamSetting τ)

/-- The payload of a chunk of a candidate. -/
def delta (n : Nat) (p : Nat × String × Option TokenLogprobs) : SseData :=
  x.chunkData n p.1 p.2.1 p.2.2

theorem turn_of_success {n i : Nat} {l l' : MultiLocals}
    {completed : CompletedRequest} (h : completed.success = true)
    (hl : { l with remaining := l.remaining - 1 }.complete i completed = l') :
    x.turn n l i (.done completed) =
      if l'.remaining = 0 then (false, { l' with terminated := true }, [.payload (x.finalPayload l')])
      else (true, l', []) := by
  subst hl
  exact if_pos h

theorem content_body (kind : StreamKind) (content : Option String) :
    (kind.body content).content = content.getD "" := by
  cases kind <;> rfl

theorem contentAt_delta {n i : Nat} (hi : i < n) (p : Nat × String × Option TokenLogprobs) :
    (x.delta n p).contentAt i = if p.1 = i then p.2.1 else "" := by
  simp only [delta, chunkData, SseData.contentAt, StreamKind.multiChunkPayload,
    List.getElem?_map, List.getElem?_range hi, Option.map_some, Option.getD_some, content_body]
  by_cases h : p.1 = i
  · rw [if_pos h, if_pos h.symm]
    rfl
  · rw [if_neg h, if_neg (Ne.symm h)]
    rfl

/-- The contents at one index are those of the chunks of that candidate. -/
theorem join_contentAt {n : Nat} (hi : i < n) (log : ChunkLog) :
    String.join ((log.map (x.delta n)).map (SseData.contentAt i)) =
      String.join ((under i log).map Prod.fst) := by
  induction log with
  | nil => rfl
  | cons p rest ih =>
    have hunder : under i (p :: rest) = (if p.1 = i then [p.2] else []) ++ under i rest :=
      (under_append i [p] rest).trans (congrArg (· ++ under i rest) (under_singleton i p.1 p.2))
    rw [List.map_cons, List.map_cons, String.join_cons, ih, contentAt_delta x hi, hunder]
    split
    · rw [List.singleton_append, List.map_cons, String.join_cons]
    · rw [List.nil_append, String.empty_append]

end StreamSetting

/-- A final payload of these candidates. -/
structure StreamPayload.Concludes (p : StreamPayload) (candidates : List Candidate) : Prop where
  choices : p.choices.length = candidates.length
  finishReasons : ∀ (i : Nat) (c : Candidate), candidates[i]? = some c →
    p.choices[i]?.bind (·.finishReason) = some c.finishReason
  completionTokens : p.usage.map (·.completionTokens) = some (candidates.map Candidate.tokens).sum

/-- The chunks that a stream has yielded, and the payload after them. -/
structure Emits {τ δ : Type} [TokenizerTrait τ δ] (x : StreamSetting τ) (candidates : List Candidate)
    (log : ChunkLog) (last : SseData) : Prop where
  labels : ∀ p ∈ log, p.1 < candidates.length
  series : ∀ (i : Nat) (c : Candidate), candidates[i]? = some c → under i log <+: c.chunks
  final : (∀ c ∈ candidates, c.Succeeds) → (∃ p, last = .payload p ∧ p.Concludes candidates) ∧
    ∀ (i : Nat) (c : Candidate), candidates[i]? = some c → under i log = c.chunks ∧
      String.join ((log.map (x.delta candidates.length)).map (SseData.contentAt i)) =
        String.join (c.chunks.map Prod.fst)
  failed : ¬ (∀ c ∈ candidates, c.Succeeds) → ∃ message, last = internalError message

namespace MultiStream

variable {τ δ : Type} [TokenizerTrait τ δ] {x : StreamSetting τ} {s s' : MultiStream} {n : Nat}
  {event : RequestEvent} {rest : List (Nat × RequestEvent)} {l : MultiLocals} {data : List SseData}
  {last : SseData}

theorem receive_of_goesOn (h : x.turn n s.locals i event = (true, l, data)) :
    s.receive x n i event rest =
      { fanIn := s.fanIn.take rest, locals := l, out := s.out ++ data } := by
  rw [receive, h]
  rfl

theorem receive_of_stops (h : x.turn n s.locals i event = (false, l, data)) :
    s.receive x n i event rest =
      { fanIn := s.fanIn.drop, locals := l, out := s.out ++ data ++ l.closing } := by
  rw [receive, h]
  rfl

/-- The stream while its loop runs. -/
structure Collects (x : StreamSetting τ) (candidates : List Candidate)
    (taken : List (Nat × RequestEvent)) (s : MultiStream) : Prop where
  accounts : s.fanIn.Accounts (candidates.map Candidate.events) taken
  tallies : s.locals.Tallies candidates.length (reportsIn taken)
  unfinished : 0 < s.locals.remaining
  out : s.out = (chunksIn taken).map (x.delta candidates.length)

/-- The stream after its loop. -/
structure Ended (x : StreamSetting τ) (candidates : List Candidate) (s : MultiStream) : Prop where
  receiving : s.fanIn.receiving = false
  out : ∃ (log : ChunkLog) (last : SseData), s.out = log.map (x.delta candidates.length) ++ [last, .done] ∧
    Emits x candidates log last

theorem collects_start (h : 0 < candidates.length) :
    (start candidates).Collects x candidates [] :=
  ⟨FanIn.accounts_start _, MultiLocals.tallies_new _, h, rfl⟩

/-- So far every candidate has had chunks of its own yielded, in order. -/
theorem emits_of_accounts
    (h : f.Accounts (candidates.map Candidate.events) taken)
    (hfinal : (∀ c ∈ candidates, c.Succeeds) →
      (∃ p, last = .payload p ∧ p.Concludes candidates) ∧
        ∀ (i : Nat) (c : Candidate), candidates[i]? = some c →
          ∃ report, (i, report) ∈ reportsIn taken)
    (hfailed : ¬ (∀ c ∈ candidates, c.Succeeds) → ∃ message, last = internalError message) :
    Emits x candidates (chunksIn taken) last := by
  refine ⟨fun p hp => ?_, fun i c hc => received_chunks h hc, fun hall => ?_, hfailed⟩
  · obtain ⟨⟨i, event⟩, hevent, heq⟩ := List.mem_filterMap.1 hp
    obtain ⟨chunk, -, rfl⟩ := Option.map_eq_some_iff.1 heq
    have hlt := h.labels _ (List.mem_append_left _ hevent)
    rwa [List.length_map] at hlt
  · refine ⟨(hfinal hall).1, fun i c hc => ?_⟩
    obtain ⟨report, hreport⟩ := (hfinal hall).2 i c hc
    obtain ⟨c', hc', -, hchunks⟩ := received_report h hreport
    obtain rfl := Option.some.inj (hc.symm.trans hc')
    refine ⟨hchunks, ?_⟩
    rw [x.join_contentAt (List.getElem?_eq_some_iff.1 hc).1, hchunks]

theorem closing_of_terminated (h : l.terminated = true) (hnone : l.failure = none) :
    l.closing = [.done] := by
  rw [MultiLocals.closing, h, hnone]
  rfl

theorem closing_of_running (h : l.terminated = false) :
    ∃ message, l.closing = [internalError message, .done] := by
  rw [MultiLocals.closing, h]
  cases l.failure with
  | none => exact ⟨_, rfl⟩
  | some message => exact ⟨message, rfl⟩

/-- The last report makes the final payload. -/
theorem emits_of_last
    (h : f.Accounts (candidates.map Candidate.events) taken)
    (ht : l.Tallies candidates.length (reportsIn taken)) (hnone : l.remaining = 0) :
    Emits x candidates (chunksIn taken)
      (.payload (x.finalPayload l)) := by
  have hcount := ht.remaining
  rw [hnone, Nat.zero_add] at hcount
  have hall : ∀ (i : Nat) (c : Candidate), candidates[i]? = some c →
      ∃ report, (i, report) ∈ reportsIn taken ∧ c.report = some report := by
    intro i c hc
    obtain ⟨report, hreport⟩ := received_all h hcount hc
    obtain ⟨c', hc', heq, -⟩ := received_report h hreport
    obtain rfl := Option.some.inj (hc.symm.trans hc')
    exact ⟨report, hreport, heq⟩
  obtain ⟨hreasons, htokens⟩ := ht.all hall
  refine emits_of_accounts h (fun _ => ⟨⟨_, rfl, ?_, fun i c hc => ?_, ?_⟩, fun i c hc => ?_⟩)
    fun hno => absurd (fun c hc => ?_) hno
  · rw [StreamSetting.finalPayload, StreamKind.multiFinalPayload, List.length_mapIdx,
      List.length_map, ht.finishReasons]
  · rw [StreamSetting.finalPayload, StreamKind.multiFinalPayload, hreasons]
    simp [hc]
  · rw [StreamSetting.finalPayload, StreamKind.multiFinalPayload, htokens]
    rfl
  · obtain ⟨report, hreport, -⟩ := hall i c hc
    exact ⟨report, hreport⟩
  · obtain ⟨i, hi⟩ := List.mem_iff_getElem?.1 hc
    obtain ⟨report, hreport, heq⟩ := hall i c hi
    exact ⟨report, heq, (ht.entries i report hreport).1⟩

theorem Collects.receive (h : s.Collects x candidates taken)
    (hmerged : s.fanIn.merged = (i, event) :: rest) :
    (∃ taken', (s.receive x candidates.length i event rest).Collects x candidates taken') ∨
      (s.receive x candidates.length i event rest).Ended x candidates := by
  have haccounts := h.accounts.take hmerged
  cases event with
  | chunk text logprobs =>
      refine .inl ⟨_, haccounts, ?_, h.unfinished, ?_⟩
      · rw [reportsIn_append]
        exact (List.append_nil _).symm ▸ h.tallies
      · rw [chunksIn_append, List.map_append, ← h.out]
        rfl
  | done completed =>
      have hreports : reportsIn (taken ++ [(i, .done completed)]) =
          reportsIn taken ++ [(i, completed)] := reportsIn_append _ _
      have hchunks : chunksIn (taken ++ [(i, .done completed)]) = chunksIn taken :=
        (chunksIn_append _ _).trans (List.append_nil _)
      have hkeys := received_keys haccounts
      rw [hreports, List.map_append, List.nodup_append] at hkeys
      have hnew : i ∉ (reportsIn taken).map Prod.fst := fun hmem =>
        hkeys.2.2 i hmem i List.mem_cons_self rfl
      obtain ⟨c, hc, hreport, -⟩ := received_report haccounts
        (hreports ▸ List.mem_append_right _ List.mem_cons_self)
      have hi := (List.getElem?_eq_some_iff.1 hc).1
      by_cases hsuccess : completed.success = true
      · have htallies := h.tallies.complete h.unfinished hi hnew hsuccess
        rw [← hreports] at htallies
        obtain ⟨l, hl⟩ : ∃ l, { s.locals with remaining := s.locals.remaining - 1 }.complete i
          completed = l := ⟨_, rfl⟩
        have hturn := x.turn_of_success (n := candidates.length) hsuccess hl
        rw [hl] at htallies
        by_cases hlast : l.remaining = 0
        · have hemits := emits_of_last (x := x) haccounts htallies hlast
          have hclosing := closing_of_terminated (l := { l with terminated := true }) rfl
            htallies.failure
          rw [if_pos hlast] at hturn
          rw [hchunks] at hemits
          rw [receive_of_stops hturn]
          refine .inr ⟨rfl, _, _, ?_, hemits⟩
          rw [hclosing, h.out, List.append_assoc]
          rfl
        · rw [if_neg hlast] at hturn
          rw [receive_of_goesOn hturn]
          refine .inl ⟨_, haccounts, htallies, Nat.pos_of_ne_zero hlast, ?_⟩
          rw [hchunks, ← h.out]
          exact List.append_nil _
      · obtain ⟨l, hl⟩ : ∃ l, { s.locals with
          remaining := s.locals.remaining - 1, failure := completed.error } = l := ⟨_, rfl⟩
        have hturn : x.turn candidates.length s.locals i (.done completed) = (false, l, []) :=
          hl ▸ if_neg hsuccess
        have hrunning : l.terminated = false := hl ▸ h.tallies.terminated
        obtain ⟨message, hclosing⟩ := closing_of_running hrunning
        rw [receive_of_stops hturn]
        refine .inr ⟨rfl, chunksIn (taken ++ [(i, .done completed)]), internalError message, ?_, ?_⟩
        · rw [hclosing, hchunks, ← h.out, List.append_nil]
        · refine emits_of_accounts haccounts (fun hall => ?_) fun _ => ⟨message, rfl⟩
          obtain ⟨report, heq, hreported⟩ := hall c (List.mem_of_getElem? hc)
          obtain rfl := Option.some.inj (hreport.symm.trans heq)
          exact absurd hreported hsuccess

/-- The loop ends early when the channels are closed before all candidates have reported. -/
theorem Collects.exhausted (h : s.Collects x candidates taken) (hend : s.fanIn.Exhausted) :
    { s with fanIn := s.fanIn.drop, out := s.out ++ s.locals.closing }.Ended x candidates := by
  obtain ⟨message, hclosing⟩ := closing_of_running h.tallies.terminated
  refine ⟨rfl, chunksIn taken, internalError message, ?_, ?_⟩
  · rw [hclosing, h.out]
  · refine emits_of_accounts h.accounts (fun hall => ?_) fun _ => ⟨message, rfl⟩
    have hle : candidates.length ≤ (reportsIn taken).length := by
      refine length_le_of_all fun i c hc => ?_
      obtain ⟨report, hreport, -⟩ := hall c (List.mem_of_getElem? hc)
      refine ⟨report, mem_reportsIn.2 (mem_under.1 ?_)⟩
      rw [h.accounts.of_exhausted hend (by rw [List.getElem?_map, hc]; rfl), Candidate.events, hreport]
      exact List.mem_append_right _ List.mem_cons_self
    have hremaining := h.tallies.remaining
    have hopen := h.unfinished
    omega

/-! ## Runs -/

theorem Step.weight_lt (h : Step x n s s') : s'.fanIn.weight < s.fanIn.weight := by
  cases h with
  | move h => exact h.weight_lt
  | @receive i event rest hreceiving hmerged =>
      rcases hturn : x.turn n s.locals i event with ⟨goesOn, l, data⟩
      cases goesOn with
      | true => exact receive_of_goesOn hturn ▸ FanIn.weight_take_lt hmerged
      | false => exact receive_of_stops hturn ▸ FanIn.weight_drop_lt hreceiving
  | exhausted hreceiving => exact FanIn.weight_drop_lt hreceiving

/-- The loop never waits for nothing. -/
theorem Collects.exists_step (h : s.Collects x candidates taken) :
    ∃ s', Step x candidates.length s s' := by
  cases hmerged : s.fanIn.merged with
  | cons p rest => exact ⟨_, .receive h.accounts.receiving hmerged⟩
  | nil =>
      by_cases hend : s.fanIn.Exhausted
      · exact ⟨_, .exhausted h.accounts.receiving hend⟩
      · obtain ⟨fanIn, hmove⟩ := h.accounts.exists_move hmerged hend
        exact ⟨_, .move hmove⟩

theorem Ended.step (h : s.Ended x candidates) (hstep : Step x n s s') :
    s'.Ended x candidates := by
  cases hstep with
  | move hmove => exact ⟨hmove.receiving_eq.trans h.receiving, h.out⟩
  | receive hreceiving =>
      rw [h.receiving] at hreceiving
      cases hreceiving
  | exhausted hreceiving =>
      rw [h.receiving] at hreceiving
      cases hreceiving

theorem collects_or_ended (hn : 1 ≤ candidates.length)
    (h : ReflTransGen (Step x candidates.length) (start candidates) s) :
    (∃ taken, s.Collects x candidates taken) ∨ s.Ended x candidates := by
  induction h with
  | refl => exact .inl ⟨[], collects_start hn⟩
  | tail _ hstep ih =>
    rcases ih with ⟨taken, hcollects⟩ | hended
    · cases hstep with
      | move hmove =>
          exact .inl ⟨taken, hcollects.accounts.move hmove, hcollects.tallies,
            hcollects.unfinished, hcollects.out⟩
      | receive _ hmerged => exact hcollects.receive hmerged
      | exhausted _ hend => exact .inr (hcollects.exhausted hend)
    · exact .inr (hended.step hstep)

/-- Every run of a stream of candidates comes to an end, and then it has yielded the chunks, one
last payload and the end marker. -/
theorem emits_of_run (x : StreamSetting τ) (candidates : List Candidate) (s : MultiStream)
    (hn : 1 ≤ candidates.length)
    (h : ReflTransGen (Step x candidates.length) (start candidates) s) :
    Acc (fun s' s => Step x candidates.length s s') s ∧
      (s.fanIn.receiving = true →
        (∃ log : ChunkLog, s.out = log.map (x.delta candidates.length)) ∧
          ∃ s', Step x candidates.length s s') ∧
      (s.fanIn.receiving = false → ∃ (log : ChunkLog) (last : SseData),
        s.out = log.map (x.delta candidates.length) ++ [last, .done] ∧
          Emits x candidates log last) := by
  refine ⟨?_, fun hreceiving => ?_, fun hreceiving => ?_⟩
  · have hacc := (InvImage.wf (fun s : MultiStream => s.fanIn.weight) Nat.lt_wfRel.wf).apply s
    exact Subrelation.accessible (fun hstep => Step.weight_lt hstep) hacc
  · rcases collects_or_ended hn h with ⟨taken, hcollects⟩ | hended
    · exact ⟨⟨_, hcollects.out⟩, hcollects.exists_step⟩
    · rw [hended.receiving] at hreceiving
      cases hreceiving
  · rcases collects_or_ended hn h with ⟨taken, hcollects⟩ | hended
    · rw [hcollects.accounts.receiving] at hreceiving
      cases hreceiving
    · exact hended.out

def pairSetting : StreamSetting SimpleTokenizer where
  kind := .chat
  sse := ⟨"chatcmpl-1", 0, "tiny"⟩
  promptTokens := 3
  tokenizer := .new
  k := 1

def pairReport (requestId : RequestId) (outputTokens : List TokenId) : CompletedRequest where
  requestId := requestId
  inputText := none
  outputText := "D"
  outputTokens := outputTokens
  success := true
  error := none
  finishReason := some .length
  logprobs := none

/-- Two candidates, of which the second has no text to stream. -/
def pair : List Candidate :=
  [⟨[("D", none)], some (pairReport 1 [40])⟩, ⟨[], some (pairReport 2 [40, 2])⟩]

theorem emits_of_run_pair :
    ∃ (s : MultiStream) (log : ChunkLog) (last : SseData),
      ReflTransGen (Step pairSetting 2) (start pair) s ∧
      s.out = log.map (pairSetting.delta 2) ++ [last, .done] ∧ Emits pairSetting pair log last := by
  have hrun : ∃ s, ReflTransGen (Step pairSetting 2) (start pair) s ∧
      s.fanIn.receiving = false := by
    refine ⟨_, .head (.move (.send (i := 1) rfl rfl)) <| .head (.move (.send (i := 0) rfl rfl)) <|
      .head (.move (.forward (i := 1) rfl rfl rfl rfl)) <|
      .head (.move (.send (i := 0) rfl rfl)) <| .head (.receive rfl rfl) <|
      .head (.move (.forward (i := 0) rfl rfl rfl rfl)) <|
      .head (.move (.forward (i := 0) rfl rfl rfl rfl)) <| .head (.receive rfl rfl) <|
      .head (.receive rfl rfl) .refl, rfl⟩
  obtain ⟨s, hrun, hend⟩ := hrun
  obtain ⟨log, last, hout⟩ := (emits_of_run pairSetting pair s (by decide) hrun).2.2 hend
  exact ⟨s, log, last, hrun, hout⟩

end MultiStream

end PagedServing
