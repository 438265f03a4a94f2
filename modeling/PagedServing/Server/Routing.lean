import PagedServing.Server.Deliveries
import PagedServing.Server.Quiescence

/-! # The routing of events

Every submission is answered once, an open client gets the chunks of its own request and then
its report, and nobody waits while the loop sleeps.
-/

namespace PagedServing

open Relation LabelledLog

/-- All the events of a request: its chunks, and then the report that ends it. -/
def Concluded (id : RequestId) (events : List RequestEvent) : Prop :=
  ∃ chunks report, report.requestId = id ∧ events = chunkEvents chunks ++ [.done report]

/-- The events of a request so far. -/
def Sequenced (id : RequestId) (events : List RequestEvent) : Prop :=
  (∃ chunks, events = chunkEvents chunks) ∨ Concluded id events

theorem prefix_chunkEvents {chunks : List (String × Option TokenLogprobs)}
    {events : List RequestEvent} (h : events <+: chunkEvents chunks) :
    ∃ chunks', events = chunkEvents chunks' := by
  refine ⟨chunks.take events.length, ?_⟩
  rw [chunkEvents, List.map_take]
  exact List.prefix_iff_eq_take.1 h

/-- Whatever has been routed of complete events is in sequence. -/
theorem Sequenced.mono {id : RequestId} {events more : List RequestEvent}
    (h : Sequenced id more) (hbefore : events <+: more) : Sequenced id events := by
  rcases h with ⟨chunks, rfl⟩ | ⟨chunks, report, hid, rfl⟩
  · exact .inl (prefix_chunkEvents hbefore)
  · rcases List.prefix_concat_iff.1 hbefore with rfl | hbefore
    · exact .inr ⟨chunks, report, hid, rfl⟩
    · exact .inl (prefix_chunkEvents hbefore)

namespace Session

variable {σ τ δ : Type} [IncrementalDecoder δ] [TokenizerTrait τ δ] {x : Setting τ}
  {answer : List TokenId → TokenId → Prop} {R : σ → Fed → Prop} {s : Session σ τ δ}
  {id : RequestId}

theorem Inv.concluded (hi : s.Inv answer R x) (h : id ∈ s.reports.map (·.requestId)) :
    Concluded id (under id s.events) := by
  obtain ⟨report, hreport, rfl⟩ := List.mem_map.1 h
  refine ⟨under report.requestId s.chunks, report, rfl, ?_⟩
  rw [Session.events, eventsOf, under_append, under_chunks,
    under_reports_of_mem hi.reports_nodup hreport]

theorem Inv.sequenced (hi : s.Inv answer R x) (id : RequestId) :
    Sequenced id (under id s.events) := by
  by_cases h : id ∈ s.reports.map (·.requestId)
  · exact .inr (hi.concluded h)
  · refine .inl ⟨under id s.chunks, ?_⟩
    rw [Session.events, eventsOf, under_append, under_chunks, under_reports_of_not_mem h,
      List.append_nil]

end Session

namespace Server

variable {σ τ δ : Type} {v : Server σ τ δ} {s : Session σ τ δ} {client : ClientId} {c : Client}

/-- What holds at any time of the clients and of what has been routed. -/
structure Routes (v : Server σ τ δ) : Prop where
  unanswered : ∀ (client : ClientId) (c : Client), v.clients[client]? = some c →
    client ∈ v.submissions.map (·.client) → c.replies = []
  answered : ∀ (client : ClientId) (c : Client), v.clients[client]? = some c →
    client ∉ v.submissions.map (·.client) → ∃ result, c.replies = [result]
  rejected : ∀ (client : ClientId) (c : Client), v.clients[client]? = some c →
    (∀ a, c.replies ≠ [.ok a]) → c.events.content = []
  admitted : ∀ (client : ClientId) (c : Client) (a : Admission),
    v.clients[client]? = some c → c.replies = [.ok a] →
    c.events.content <+: under a.requestId v.routed ∧
      (c.events.connected = true → c.events.content = under a.requestId v.routed)
  sequenced : ∀ id, Sequenced id (under id v.routed)
  apart : ∀ (client client' : ClientId) (c c' : Client) (a a' : Admission),
    v.clients[client]? = some c → v.clients[client']? = some c' → c.replies = [.ok a] →
    c'.replies = [.ok a'] → a.requestId = a'.requestId → client = client'
  asleep : v.phase = .recv → v.engine.scheduler.hasPendingWork = false ∧ v.waiters = ∅

/-- What holds when the loop has nothing to do. -/
structure Served (v : Server σ τ δ) : Prop where
  answered : ∀ (client : ClientId) (c : Client), v.clients[client]? = some c →
    ∃ result, c.replies = [result]
  concluded : ∀ (client : ClientId) (c : Client) (a : Admission),
    v.clients[client]? = some c → c.replies = [.ok a] → c.events.connected = true →
    Concluded a.requestId c.events.content

/-! ## While nobody works -/

theorem Delivers.waiters_eq_empty (h : v.Delivers s) (hs : v.engine = s.engine)
    (hidle : v.engine.scheduler.hasPendingWork = false) (hnone : v.phase.reports = []) :
    v.waiters = ∅ := by
  refine IdMap.eq_empty_iff.2 fun id => ?_
  cases hw : v.waiters[id]? with
  | none => rfl
  | some client =>
      rcases h.waits id client hw with hid | hid
      · rw [← hs] at hid
        rw [hid.hasPendingWork] at hidle
        cases hidle
      · rw [hnone] at hid
        cases hid

/-- An open client that nobody waits for any more has all its events. -/
theorem Delivers.concluded [IncrementalDecoder δ] [TokenizerTrait τ δ] {x : Setting τ}
    {answer : List TokenId → TokenId → Prop} {R : σ → Fed → Prop} (h : v.Delivers s)
    (hi : s.Inv answer R x) (hwaiters : v.waiters = ∅) (hnone : v.phase.coming = []) {a : Admission}
    (hc : v.clients[client]? = some c) (hreplies : c.replies = [.ok a])
    (hopen : c.events.connected = true) : Concluded a.requestId c.events.content := by
  obtain ⟨-, -, -, hall⟩ := (h.clients client c hc).admitted_of_replies hreplies
  obtain ⟨hcontent, hawaited⟩ := hall hopen
  have hrouted := h.routed a.requestId
  rw [hnone, List.append_nil] at hrouted
  rw [hcontent, hrouted]
  rcases hawaited with hw | ⟨hreported, -⟩
  · rw [hwaiters] at hw
    simp at hw
  · exact hi.concluded hreported

variable [IncrementalDecoder δ] [TokenizerTrait τ δ] {x : Setting τ}

theorem Delivers.routes (h : v.Delivers s) (hf : v.Follows x s) (hpaced : v.Paced) : v.Routes where
  unanswered client c hc hmem := by
    cases h.clients client c hc with
    | queued hreplies => exact hreplies
    | refused _ hno => exact absurd hmem hno
    | admitted _ hno => exact absurd hmem hno
  answered client c hc hno := by
    cases h.clients client c hc with
    | queued _ hmem => exact absurd hmem hno
    | refused hreplies => exact ⟨_, hreplies⟩
    | admitted hreplies => exact ⟨_, hreplies⟩
  rejected client c hc hno := by
    cases h.clients client c hc with
    | queued _ _ hcontent => exact hcontent
    | refused _ _ hcontent => exact hcontent
    | admitted hreplies => exact absurd hreplies (hno _)
  admitted client c a hc hreplies := by
    obtain ⟨-, -, hcontent, hopen⟩ := (h.clients client c hc).admitted_of_replies hreplies
    exact ⟨hcontent, fun hconnected => (hopen hconnected).1⟩
  sequenced id := by
    refine (hf.steady.inv.sequenced id).mono ?_
    rw [← h.routed id, under_append]
    exact List.prefix_append _ _
  apart client client' c c' a a' hc hc' hreplies hreplies' heq :=
    h.apart ⟨c, a.promptTokens, hc, hreplies⟩ ⟨c', a'.promptTokens, hc', heq ▸ hreplies'⟩
  asleep hphase := by
    have hidle := hpaced.phase
    rw [hphase] at hidle
    exact ⟨hidle, h.waiters_eq_empty hf.engine hidle (by rw [hphase]; rfl)⟩

variable [GPUExecutorTrait σ]

/-- The loop has nothing to do when it waits for a submission or has returned. -/
theorem loopStep_eq_none (h : v.loopStep = none) :
    (v.phase = .recv ∧ v.submissions = []) ∨ v.phase = .returned := by
  rw [loopStep] at h
  split at h
  next => cases h
  next hphase =>
    split at h
    next => cases h
    next hnone => exact .inl ⟨hphase, hnone⟩
  next => split at h <;> cases h
  next => split at h <;> cases h
  next => split at h <;> cases h
  next => split at h <;> cases h
  next => cases h
  next => split at h <;> cases h
  next => cases h
  next hphase => exact .inr hphase

theorem Delivers.served (h : v.Delivers s) (hf : v.Follows x s) (hpaced : v.Paced)
    (hrest : v.loopStep = none) : v.Served := by
  have hsub : v.submissions = [] :=
    (loopStep_eq_none hrest).elim (·.2) fun hphase => (hpaced.returned hphase).1
  have hidle : v.engine.scheduler.hasPendingWork = false ∧ v.phase.coming = [] := by
    have hphase := hpaced.phase
    rcases loopStep_eq_none hrest with ⟨heq, -⟩ | heq
    · rw [heq] at hphase ⊢
      exact ⟨hphase, rfl⟩
    · rw [heq] at hphase ⊢
      exact ⟨hphase, rfl⟩
  refine ⟨fun client c hc => (h.routes hf hpaced).answered client c hc ?_,
    fun client c a hc hreplies hopen => ?_⟩
  · rw [hsub]
    exact List.not_mem_nil
  · exact h.concluded hf.steady.inv
      (h.waiters_eq_empty hf.engine hidle.1 (Phase.reports_of_coming hidle.2)) hidle.2 hc hreplies
      hopen

theorem Reachable.delivers {config : EngineConfig} {tokenizer : τ} {gpuExecutor : σ}
    (h : Reachable config tokenizer gpuExecutor v) :
    ∃ s, v.Follows (Session.settingOf config tokenizer) s ∧ v.Paced ∧ v.Delivers s :=
  h.follows (P := fun v s => v.Paced ∧ v.Delivers s) ⟨paced_start _, delivers_start _ rfl⟩
    (fun hf ⟨hpaced, hd⟩ hstep => ⟨hpaced.loop hf hstep, hd.loop hf hpaced hstep⟩)
    (fun ⟨hpaced, hd⟩ hstep => ⟨hpaced.clientStep hstep, hd.clientStep hstep⟩)
    fun prompt params hopen ⟨hpaced, hd⟩ =>
      ⟨hpaced.submit hopen prompt params, hd.submit prompt params⟩

/-- At any time of any run the clients have what is theirs and nothing else; without further
submissions the run ends, and then everybody has been answered in full. -/
theorem routes_of_reachable (config : EngineConfig) (tokenizer : τ) (gpuExecutor : σ)
    (v : Server σ τ δ) (hv : Reachable config tokenizer gpuExecutor v) :
    v.Routes ∧ Acc (fun v' v : Server σ τ δ => Quiet v v') v ∧
      (v.loopStep = none → v.Served) := by
  obtain ⟨s, hf, hpaced, hd⟩ := hv.delivers
  exact ⟨hd.routes hf hpaced, hf.acc_quiet hpaced, hd.served hf hpaced⟩

/-- Two submissions, of which the second is refused. -/
def smallServer : Server (FunctionBackend Session.stopAtFour) SimpleTokenizer SimpleDecoder :=
  (start (Session.new Session.smallConfig SimpleTokenizer.new ⟨fun _ => []⟩).engine
    |>.submit "a" { maxTokens := 2 }).submit "" { maxTokens := 2 }

theorem routes_of_reachable_small :
    ∃ v, loopSteps 19 smallServer = some v ∧ v.clients.length = 2 ∧ v.routed.length = 2 ∧
      v.Routes ∧ v.Served := by
  have hvalid : Session.smallConfig.validate = .ok () := by decide +kernel
  have hrun : (loopSteps 19 smallServer).map (fun v =>
      (v.loopStep.isNone, v.clients.length, v.routed.length)) = some (true, 2, 2) := by
    decide +kernel
  obtain ⟨v, hv, hrest⟩ := Option.map_eq_some_iff.1 hrun
  obtain ⟨hrest, hlength⟩ := Prod.mk.inj hrest
  obtain ⟨hclients, hrouted⟩ := Prod.mk.inj hlength
  have hreachable := ((Reachable.start hvalid).step (.submit "a" { maxTokens := 2 } rfl (by decide)))
    |>.step (.submit "" { maxTokens := 2 } rfl (by decide)) |>.loopSteps hv
  obtain ⟨hroutes, -, hserved⟩ := routes_of_reachable Session.smallConfig SimpleTokenizer.new
    (⟨fun _ => []⟩ : FunctionBackend Session.stopAtFour) v hreachable
  exact ⟨v, hv, hclients, hrouted, hroutes, hserved (Option.isNone_iff_eq_none.1 hrest)⟩

end Server

end PagedServing
