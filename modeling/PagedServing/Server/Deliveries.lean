import PagedServing.Server.Pacing

/-! # Deliveries

What the loop has routed and is about to route is what the engine has returned. An open
client has a waiter until its last event has been sent, and gets all events of its request.
-/

namespace PagedServing

open Relation LabelledLog

/-! ## Events on their way -/

namespace Phase

/-- The reports that are still to be dispatched in this turn. -/
def reports : Phase → List CompletedRequest
  | .sending locals => locals.completed
  | .cancelling locals => locals.completed
  | .dispatching locals => locals.completed
  | .stalled rest => rest
  | _ => []

/-- The events that are still to be routed in this turn. -/
def coming (phase : Phase) : List (RequestId × RequestEvent) :=
  match phase with
  | .sending locals => eventsOf locals.chunks locals.completed
  | phase => phase.reports.map CompletedRequest.event

theorem reports_of_coming {phase : Phase} (h : phase.coming = []) : phase.reports = [] := by
  cases phase <;> simp_all [coming, reports, eventsOf]

theorem event_mem_coming {phase : Phase} {report : CompletedRequest} (h : report ∈ phase.reports) :
    report.event ∈ phase.coming := by
  cases phase with
  | sending locals => exact List.mem_append_right _ (List.mem_map_of_mem h)
  | _ => exact List.mem_map_of_mem h

/-- The requests whose clients were found to be gone in this turn. -/
def gone : Phase → List RequestId
  | .sending locals => locals.disconnected
  | .cancelling locals => locals.disconnected
  | _ => []

end Phase

namespace Server

variable {σ τ δ : Type} {v v' : Server σ τ δ} {s s' : Session σ τ δ} {client k : ClientId}
  {c : Client} {id : RequestId} {event : RequestEvent}

theorem withClient_eq_some {f : Client → Client} {c' : Client} :
    (v.withClient k f).clients[client]? = some c' ↔
      ∃ c, v.clients[client]? = some c ∧ c' = if k = client then f c else c := by
  simp only [withClient, List.getElem?_modify, Option.map_eq_map, Option.map_eq_some_iff,
    eq_comm (a := c')]

/-- The submission of this client was admitted under this id. -/
def Owns (v : Server σ τ δ) (client : ClientId) (id : RequestId) : Prop :=
  ∃ c promptTokens, v.clients[client]? = some c ∧ c.replies = [.ok ⟨id, promptTokens⟩]

/-- What is owed to an open client of an admitted request: a waiter, or nothing more. -/
def Awaited (v : Server σ τ δ) (s : Session σ τ δ) (client : ClientId) (id : RequestId) : Prop :=
  v.waiters[id]? = some client ∨
    id ∈ s.reports.map (·.requestId) ∧ id ∉ v.phase.coming.map Prod.fst

inductive ClientState (v : Server σ τ δ) (s : Session σ τ δ) (client : ClientId) (c : Client) : Prop
  | queued (hreplies : c.replies = []) (hmem : client ∈ v.submissions.map (·.client))
      (hcontent : c.events.content = [])
  | refused {err : EngineError} (hreplies : c.replies = [.error err])
      (hmem : client ∉ v.submissions.map (·.client)) (hcontent : c.events.content = [])
  | admitted {a : Admission} (hreplies : c.replies = [.ok a])
      (hmem : client ∉ v.submissions.map (·.client)) (hid : a.requestId ∈ s.admitted.map (·.id))
      (hcontent : c.events.content <+: under a.requestId v.routed)
      (hopen : c.events.connected = true → c.events.content = under a.requestId v.routed ∧
        v.Awaited s client a.requestId)

/-- What the loop keeps between its steps. -/
structure Delivers (v : Server σ τ δ) (s : Session σ τ δ) : Prop where
  routed : ∀ id, under id (v.routed ++ v.phase.coming) = under id s.events
  queue : (v.submissions.map (·.client)).Nodup
  known : ∀ submission ∈ v.submissions, submission.client < v.clients.length
  clients : ∀ (client : ClientId) (c : Client), v.clients[client]? = some c →
    v.ClientState s client c
  owned : ∀ (id : RequestId) (client : ClientId), v.waiters[id]? = some client → v.Owns client id
  apart : ∀ {client client' : ClientId} {id : RequestId}, v.Owns client id → v.Owns client' id →
    client = client'
  waits : ∀ (id : RequestId) (client : ClientId), v.waiters[id]? = some client →
    s.engine.scheduler.Unfinished id ∨ id ∈ v.phase.reports.map (·.requestId)
  gone : ∀ id ∈ v.phase.gone, ∀ (client : ClientId) (c : Client), v.clients[client]? = some c →
    v.Owns client id → c.events.connected = false
  fresh : (v.phase.reports.map (·.requestId)).Nodup

/-! ## One client -/

theorem ClientState.mono (h : v.ClientState s client c)
    (hsub : client ∈ v'.submissions.map (·.client) ↔ client ∈ v.submissions.map (·.client))
    (hadmitted : ∀ id, id ∈ s.admitted.map (·.id) → id ∈ s'.admitted.map (·.id))
    (hrouted : ∀ a, c.replies = [.ok a] →
      under a.requestId v.routed <+: under a.requestId v'.routed)
    (hawaited : ∀ a, c.replies = [.ok a] → a.requestId ∈ s.admitted.map (·.id) →
      c.events.connected = true → v.Awaited s client a.requestId →
        under a.requestId v'.routed = under a.requestId v.routed ∧
          v'.Awaited s' client a.requestId) : v'.ClientState s' client c := by
  cases h with
  | queued hreplies hmem hcontent => exact .queued hreplies (hsub.2 hmem) hcontent
  | refused hreplies hmem hcontent => exact .refused hreplies (mt hsub.1 hmem) hcontent
  | @admitted a hreplies hmem hid hcontent hopen =>
      refine .admitted hreplies (mt hsub.1 hmem) (hadmitted _ hid)
        (hcontent.trans (hrouted a hreplies)) fun hc => ?_
      obtain ⟨hall, ha⟩ := hopen hc
      obtain ⟨hsame, ha'⟩ := hawaited a hreplies hid hc ha
      exact ⟨hall.trans hsame.symm, ha'⟩

/-- The client has taken something, or is gone. -/
theorem ClientState.withEvents (h : v.ClientState s client c) {events : Channel RequestEvent}
    (hcontent : events.content <+: c.events.content)
    (hopen : events.connected = true → c.events.connected = true ∧
      events.content = c.events.content) :
    v.ClientState s client { c with events := events } := by
  cases h with
  | queued hreplies hmem hnone =>
      exact .queued hreplies hmem (List.prefix_nil.1 (hnone ▸ hcontent))
  | refused hreplies hmem hnone =>
      exact .refused hreplies hmem (List.prefix_nil.1 (hnone ▸ hcontent))
  | @admitted a hreplies hmem hid hbefore hold =>
      refine .admitted hreplies hmem hid (hcontent.trans hbefore) fun hc => ?_
      obtain ⟨hconnected, hsame⟩ := hopen hc
      obtain ⟨hall, ha⟩ := hold hconnected
      exact ⟨hsame.trans hall, ha⟩

theorem ClientState.admitted_of_replies (h : v.ClientState s client c) {a : Admission}
    (hreplies : c.replies = [.ok a]) :
    client ∉ v.submissions.map (·.client) ∧ a.requestId ∈ s.admitted.map (·.id) ∧
      c.events.content <+: under a.requestId v.routed ∧
      (c.events.connected = true → c.events.content = under a.requestId v.routed ∧
        v.Awaited s client a.requestId) := by
  cases h with
  | queued hno =>
      rw [hno] at hreplies
      cases hreplies
  | refused hno =>
      rw [hno] at hreplies
      cases hreplies
  | admitted heq hmem hid hcontent hopen =>
      rw [heq] at hreplies
      cases hreplies
      exact ⟨hmem, hid, hcontent, hopen⟩

theorem Delivers.owns_admitted (h : v.Delivers s) (ho : v.Owns client id) :
    id ∈ s.admitted.map (·.id) := by
  obtain ⟨c, n, hc, hreplies⟩ := ho
  exact ((h.clients client c hc).admitted_of_replies hreplies).2.1

/-! ## Steps that leave the clients alone -/

theorem owns_iff_of_clients (h : v'.clients = v.clients) : v'.Owns client id ↔ v.Owns client id := by
  rw [Owns, Owns, h]

theorem Delivers.of_same (h : v.Delivers s) (hclients : v'.clients = v.clients)
    (hwaiters : v'.waiters = v.waiters) (hsub : v'.submissions = v.submissions)
    (hrouted : v'.routed = v.routed) (hcoming : v'.phase.coming = v.phase.coming)
    (hreports : v'.phase.reports = v.phase.reports) (hgone : v'.phase.gone ⊆ v.phase.gone) :
    v'.Delivers s where
  routed := by rw [hrouted, hcoming]; exact h.routed
  queue := hsub ▸ h.queue
  known := by rw [hsub, hclients]; exact h.known
  clients client c hc := by
    refine (h.clients client c (hclients ▸ hc)).mono (by rw [hsub]) (fun _ hid => hid)
      (fun _ _ => by rw [hrouted]) fun a _ _ _ ha => ⟨by rw [hrouted], ?_⟩
    rwa [Awaited, hwaiters, hcoming]
  owned id client hw := (owns_iff_of_clients hclients).2 (h.owned id client (hwaiters ▸ hw))
  apart ho ho' :=
    h.apart ((owns_iff_of_clients hclients).1 ho) ((owns_iff_of_clients hclients).1 ho')
  waits := by rw [hwaiters, hreports]; exact h.waits
  gone id hid client c hc ho :=
    h.gone id (hgone hid) client c (hclients ▸ hc) ((owns_iff_of_clients hclients).1 ho)
  fresh := hreports ▸ h.fresh

/-- Between two turns nothing is to be routed. -/
theorem Delivers.of_done (h : v.Delivers s) (hnone : v.phase.coming = [])
    (hclients : v'.clients = v.clients) (hwaiters : v'.waiters = v.waiters)
    (hsub : v'.submissions = v.submissions) (hrouted : v'.routed = v.routed)
    (hcoming : v'.phase.coming = []) (hgone : v'.phase.gone = []) : v'.Delivers s := by
  refine h.of_same hclients hwaiters hsub hrouted (hcoming.trans hnone.symm) ?_ ?_
  · rw [Phase.reports_of_coming hcoming, Phase.reports_of_coming hnone]
  · rw [hgone]
    exact List.nil_subset _

/-- What a call of the engine brings is to be routed. -/
theorem Delivers.brings {chunks : List StepChunk} {reports : List CompletedRequest}
    (h : v.Delivers s) (hnone : v.phase.coming = []) (hb : s.Brings chunks reports s')
    (hnodup : (s'.reports.map (·.requestId)).Nodup) (hclients : v'.clients = v.clients)
    (hwaiters : v'.waiters = v.waiters) (hsub : v'.submissions = v.submissions)
    (hrouted : v'.routed = v.routed) (hcoming : v'.phase.coming = eventsOf chunks reports)
    (hreports : v'.phase.reports = reports) (hgone : v'.phase.gone = []) : v'.Delivers s' where
  routed id := by
    have hbefore := h.routed id
    rw [hnone, List.append_nil] at hbefore
    rw [hb.events, under_append, under_append, hrouted, hbefore, hcoming]
  queue := hsub ▸ h.queue
  known := by rw [hsub, hclients]; exact h.known
  clients client c hc := by
    refine (h.clients client c (hclients ▸ hc)).mono (by rw [hsub]) (fun _ hid => hb.admitted ▸ hid)
      (fun _ _ => by rw [hrouted]) fun a _ _ _ ha => ⟨by rw [hrouted], ?_⟩
    rw [Awaited, hwaiters]
    refine ha.imp_right fun ⟨hreported, _⟩ => ⟨?_, ?_⟩
    · rw [hb.reported, List.map_append]
      exact List.mem_append_left _ hreported
    · rw [hcoming]
      exact hb.not_mem hnodup hreported
  owned id client hw := (owns_iff_of_clients hclients).2 (h.owned id client (hwaiters ▸ hw))
  apart ho ho' :=
    h.apart ((owns_iff_of_clients hclients).1 ho) ((owns_iff_of_clients hclients).1 ho')
  waits id client hw := by
    rw [hreports]
    rcases h.waits id client (hwaiters ▸ hw) with hid | hid
    · exact hb.unfinished id hid
    · rw [Phase.reports_of_coming hnone] at hid
      cases hid
  gone := by rw [hgone]; simp
  fresh := by
    rw [hb.reported, List.map_append] at hnodup
    rw [hreports]
    exact (List.nodup_append.1 hnodup).2.1

/-! ## Admission -/

section Admission

variable {submission : Submission} {rest : List Submission}

/-- The client of the next submission has had no reply. -/
theorem Delivers.head_queued (h : v.Delivers s) (hsub : v.submissions = submission :: rest)
    (hc : v.clients[submission.client]? = some c) :
    c.replies = [] ∧ c.events.content = [] ∧ submission.client ∉ rest.map (·.client) := by
  have hqueue := h.queue
  rw [hsub, List.map_cons, List.nodup_cons] at hqueue
  have hmem : submission.client ∈ v.submissions.map (·.client) := by
    rw [hsub]
    exact List.mem_cons_self
  cases h.clients _ c hc with
  | queued hreplies _ hcontent => exact ⟨hreplies, hcontent, hqueue.1⟩
  | refused _ hno _ => exact absurd hmem hno
  | admitted _ hno _ _ _ => exact absurd hmem hno

theorem mem_rest_iff (hsub : v.submissions = submission :: rest) (hne : submission.client ≠ client) :
    client ∈ rest.map (·.client) ↔ client ∈ v.submissions.map (·.client) := by
  rw [hsub, List.map_cons, List.mem_cons]
  exact ⟨.inr, fun h => h.resolve_left hne.symm⟩

/-- Replying to a client that had no reply. -/
theorem owns_reply_iff {result : Except EngineError Admission}
    (hnone : ∀ c, v.clients[k]? = some c → c.replies = []) (hlt : k < v.clients.length) :
    (v.reply k result).Owns client id ↔
      v.Owns client id ∨ k = client ∧ ∃ n, result = .ok ⟨id, n⟩ := by
  constructor
  · rintro ⟨c', n, hc', hreplies⟩
    obtain ⟨c, hc, rfl⟩ := withClient_eq_some.1 hc'
    split at hreplies
    next heq =>
      subst heq
      have hone : c.replies ++ [result] = [.ok ⟨id, n⟩] := hreplies
      rw [hnone c hc, List.nil_append] at hone
      exact .inr ⟨rfl, n, List.head_eq_of_cons_eq hone⟩
    next => exact .inl ⟨c, n, hc, hreplies⟩
  · rintro (⟨c, n, hc, hreplies⟩ | ⟨rfl, n, rfl⟩)
    · have hne : k ≠ client := by
        rintro rfl
        rw [hnone c hc] at hreplies
        cases hreplies
      exact ⟨c, n, withClient_eq_some.2 ⟨c, hc, (if_neg hne).symm⟩, hreplies⟩
    · have hc := List.getElem?_eq_getElem hlt
      refine ⟨_, n, withClient_eq_some.2 ⟨_, hc, (if_pos rfl).symm⟩, ?_⟩
      rw [hnone _ hc]
      rfl

/-- The head of the queue changes by its reply, and nobody else does. -/
private theorem Delivers.clients_reply {result : Except EngineError Admission} (h : v.Delivers s)
    (hsub : v.submissions = submission :: rest)
    (hclients : v'.clients = (v.reply submission.client result).clients)
    (hrest : v'.submissions = rest) (hrouted : v'.routed = v.routed)
    (hcoming : v'.phase.coming = [])
    (hadmitted : ∀ id, id ∈ s.admitted.map (·.id) → id ∈ s'.admitted.map (·.id))
    (hreports : s'.reports = s.reports)
    (hwaiters : ∀ id : RequestId, id ∈ s.admitted.map (·.id) → v'.waiters[id]? = v.waiters[id]?)
    (hhead : ∀ c, c.replies = [result] → c.events.content = [] →
      submission.client ∉ rest.map (·.client) → v'.ClientState s' submission.client c) :
    ∀ client c', v'.clients[client]? = some c' → v'.ClientState s' client c' := by
  intro client c' hc'
  rw [hclients] at hc'
  obtain ⟨c, hc, rfl⟩ := withClient_eq_some.1 hc'
  split
  next heq =>
    subst heq
    obtain ⟨hreplies, hcontent, hno⟩ := h.head_queued hsub hc
    exact hhead _ (by rw [hreplies]; rfl) hcontent hno
  next hne =>
    refine (h.clients client c hc).mono ?_ hadmitted (fun _ _ => by rw [hrouted])
      fun a _ hid _ ha => ⟨by rw [hrouted], ?_⟩
    · rw [hrest]
      exact mem_rest_iff hsub hne
    · rw [Awaited, hwaiters _ hid, hreports, hcoming]
      exact ha.imp_right fun hdone => ⟨hdone.1, List.not_mem_nil⟩

variable [GPUExecutorTrait σ] [IncrementalDecoder δ] [TokenizerTrait τ δ] {x : Setting τ}

/-- The next submission gets its reply, and a waiter when it was admitted. -/
theorem Delivers.accept (h : v.Delivers s) (hf : v.Follows x s)
    (hphase : v.phase = .recv ∨ v.phase = .drain) (hsub : v.submissions = submission :: rest) :
    Delivers { { v with submissions := rest }.admitSubmission submission with phase := .drain }
      (s.submit submission.prompt submission.params) := by
  have hi := hf.steady.inv
  have hcoming : v.phase.coming = [] := by rcases hphase with hphase | hphase <;> rw [hphase] <;> rfl
  have hlt : ∀ sub ∈ submission :: rest, sub.client < v.clients.length := hsub ▸ h.known
  have hqueue := h.queue
  rw [hsub, List.map_cons, List.nodup_cons] at hqueue
  have hnone : ∀ c, v.clients[submission.client]? = some c → c.replies = [] := fun c hc =>
    (h.head_queued hsub hc).1
  have howns : ∀ {result client id}, (v.reply submission.client result).Owns client id ↔
      v.Owns client id ∨ submission.client = client ∧ ∃ n, result = .ok ⟨id, n⟩ :=
    owns_reply_iff hnone (hlt submission List.mem_cons_self)
  have hreports := s.reports_submit submission.prompt submission.params
  have hrouted : ∀ id, under id (v.routed ++ []) =
      under id (s.submit submission.prompt submission.params).events := fun id => by
    rw [Session.events_submit, ← hcoming]
    exact h.routed id
  have hwaits : ∀ (id : RequestId) (client : ClientId), v.waiters[id]? = some client →
      (s.submit submission.prompt submission.params).engine.scheduler.Unfinished id := by
    intro id client hw
    rcases h.waits id client hw with hid | hid
    · exact s.unfinished_submit _ _ hid
    · rw [Phase.reports_of_coming hcoming] at hid
      cases hid
  have hknown : ∀ (f : Client → Client), ∀ sub ∈ rest,
      sub.client < (v.clients.modify submission.client f).length := fun f sub hmem => by
    rw [List.length_modify]
    exact hlt sub (List.mem_cons_of_mem _ hmem)
  rcases s.submit_spec hi submission.prompt submission.params with
    ⟨err, hrun, hadmitted⟩ | ⟨r, n, hrun, hadmitted, hfresh, hunfinished⟩
  · rw [← hf.engine] at hrun
    rw [admitSubmission, hrun]
    refine ⟨hrouted, hqueue.2, hknown _, ?_, ?_, ?_, ?_, by rintro _ ⟨⟩, List.nodup_nil⟩
    · exact h.clients_reply hsub rfl rfl rfl rfl (fun id hid => hadmitted ▸ hid) hreports
        (fun _ _ => rfl) fun c hreplies hcontent hno => .refused hreplies hno hcontent
    · exact fun id client hw => howns.2 (.inl (h.owned id client hw))
    · intro client client' id ho ho'
      refine h.apart ((howns.1 ho).resolve_right ?_) ((howns.1 ho').resolve_right ?_) <;>
        rintro ⟨-, _, ⟨⟩⟩
    · exact fun id client hw => .inl (hwaits id client hw)
  · rw [← hf.engine] at hrun
    rw [admitSubmission, hrun]
    have hne : ∀ id, id ∈ s.admitted.map (·.id) → r.id ≠ id := fun id hid heq => hfresh (heq ▸ hid)
    have hmem : r.id ∈ (s.submit submission.prompt submission.params).admitted.map (·.id) := by
      rw [hadmitted, List.map_append]
      exact List.mem_append_right _ List.mem_cons_self
    have hinsert : ∀ id : RequestId, (v.waiters.insert r.id submission.client)[id]? =
        if r.id = id then some submission.client else v.waiters[id]? :=
      fun id => IdMap.get_insert _ _ id _
    refine ⟨hrouted, hqueue.2, hknown _, ?_, ?_, ?_, ?_, by rintro _ ⟨⟩, List.nodup_nil⟩
    · refine h.clients_reply hsub rfl rfl rfl rfl (fun id hid => ?_) hreports
        (fun id hid => IdMap.get_insert_ne (hne id hid)) fun c hreplies hcontent hno =>
          .admitted hreplies hno hmem (hcontent ▸ List.nil_prefix) fun _ => ⟨?_, .inl ?_⟩
      · rw [hadmitted, List.map_append]
        exact List.mem_append_left _ hid
      · have hall := hrouted r.id
        rw [List.append_nil, Session.events_submit, hi.events_of_stranger hfresh] at hall
        exact hcontent.trans hall.symm
      · exact Std.ExtTreeMap.getElem?_insert_self
    · intro id client hw
      replace hw := (hinsert id).symm.trans hw
      split at hw
      next heq => exact howns.2 (.inr ⟨Option.some.inj hw, n, heq ▸ rfl⟩)
      next => exact howns.2 (.inl (h.owned id client hw))
    · have hold : ∀ {client id}, v.Owns client id → r.id ≠ id := fun ho => hne _ (h.owns_admitted ho)
      intro client client' id ho ho'
      rcases howns.1 ho with ho | ⟨rfl, _, ⟨⟩⟩
      · rcases howns.1 ho' with ho' | ⟨-, _, ⟨⟩⟩
        · exact h.apart ho ho'
        · exact absurd rfl (hold ho)
      · rcases howns.1 ho' with ho' | ⟨heq, -⟩
        · exact absurd rfl (hold ho')
        · exact heq
    · intro id client hw
      replace hw := (hinsert id).symm.trans hw
      split at hw
      next heq => exact .inl (heq ▸ hunfinished)
      next => exact .inl (hwaits id client hw)

end Admission

/-! ## Sending -/

/-- The clients after an event has gone to the waiter of its request. -/
def delivered (v : Server σ τ δ) (id : RequestId) (event : RequestEvent) : List Client :=
  v.waiters[id]?.elim v.clients fun client => (v.sendEvent client event).2.clients

theorem delivered_eq_some {c' : Client} :
    (v.delivered id event)[client]? = some c' ↔ ∃ c, v.clients[client]? = some c ∧
      c' = if v.waiters[id]? = some client then { c with events := (c.events.send event).2 } else c := by
  rw [delivered]
  cases hw : v.waiters[id]? with
  | none => simp
  | some k =>
      have hsent : (v.withClient k fun c =>
          { c with events := (c.events.send event).2 }).clients[client]? = some c' ↔ _ :=
        withClient_eq_some
      simpa [sendEvent] using hsent

theorem length_delivered : (v.delivered id event).length = v.clients.length := by
  rw [delivered]
  cases v.waiters[id]? with
  | none => rfl
  | some k => exact List.length_modify _ _ _

theorem owns_delivered_iff (h : v'.clients = v.delivered id event) {a : RequestId} :
    v'.Owns client a ↔ v.Owns client a := by
  rw [Owns, h]
  constructor
  · rintro ⟨c', n, hc', hreplies⟩
    obtain ⟨c, hc, rfl⟩ := delivered_eq_some.1 hc'
    refine ⟨c, n, hc, ?_⟩
    split at hreplies <;> exact hreplies
  · rintro ⟨c, n, hc, hreplies⟩
    refine ⟨_, n, delivered_eq_some.2 ⟨c, hc, rfl⟩, ?_⟩
    split <;> exact hreplies

/-- The next event goes to the waiter of its request. -/
theorem Delivers.deliver (h : v.Delivers s)
    (hcoming : v.phase.coming = (id, event) :: v'.phase.coming)
    (hrouted : v'.routed = v.routed ++ [(id, event)]) (hsub : v'.submissions = v.submissions)
    (hclients : v'.clients = v.delivered id event)
    (hwaiters : ∀ (a : RequestId) (client : ClientId), v'.waiters[a]? = some client →
      v.waiters[a]? = some client)
    (hkept : ∀ (a : RequestId) (client : ClientId), v.waiters[a]? = some client →
      v'.Awaited s client a)
    (hwaits : ∀ (a : RequestId) (client : ClientId), v'.waiters[a]? = some client →
      s.engine.scheduler.Unfinished a ∨ a ∈ v'.phase.reports.map (·.requestId))
    (hgone : ∀ a ∈ v'.phase.gone, ∀ (client : ClientId) (c : Client),
      v.clients[client]? = some c → v.Owns client a → c.events.connected = false)
    (hfresh : (v'.phase.reports.map (·.requestId)).Nodup) : v'.Delivers s where
  routed a := by
    rw [hrouted, List.append_assoc, List.singleton_append, ← hcoming]
    exact h.routed a
  queue := hsub ▸ h.queue
  known submission hmem := by
    rw [hclients, length_delivered]
    exact h.known submission (hsub ▸ hmem)
  clients client c' hc' := by
    rw [hclients] at hc'
    obtain ⟨c, hc, rfl⟩ := delivered_eq_some.1 hc'
    have hstate := h.clients client c hc
    split
    next hw =>
      obtain ⟨c₀, n, hc₀, hreplies⟩ := h.owned id client hw
      obtain rfl : c₀ = c := Option.some.inj (hc₀.symm.trans hc)
      obtain ⟨hmem, hid, hcontent, hopen⟩ := hstate.admitted_of_replies hreplies
      have hunder : under id v'.routed = under id v.routed ++ [event] := by
        rw [hrouted, under_append, under_singleton, if_pos rfl]
      refine .admitted hreplies (hsub ▸ hmem) hid ?_ fun hconnected => ?_
      · rw [Channel.content_send, hunder]
        split
        next hconnected =>
          rw [(hopen hconnected).1]
        next => exact (List.append_nil _).symm ▸ hcontent.trans (List.prefix_append _ _)
      · have hopened : c₀.events.connected = true :=
          (Channel.connected_send c₀.events event).symm.trans hconnected
        rw [Channel.content_send, if_pos hopened, hunder, (hopen hopened).1]
        exact ⟨rfl, hkept id client hw⟩
    next hw =>
      refine hstate.mono (by rw [hsub]) (fun _ hid => hid) (fun _ _ => ?_) fun a hreplies _ _ ha => ?_
      · rw [hrouted, under_append]
        exact List.prefix_append _ _
      · have hne : id ≠ a.requestId := by
          rintro rfl
          rcases ha with ha | ⟨-, hno⟩
          · exact hw ha
          · rw [hcoming] at hno
            exact hno List.mem_cons_self
        refine ⟨?_, ?_⟩
        · rw [hrouted, under_append, under_singleton, if_neg hne, List.append_nil]
        · rcases ha with ha | ⟨hdone, hno⟩
          · exact hkept _ _ ha
          · rw [hcoming] at hno
            exact .inr ⟨hdone, fun hmem => hno (List.mem_cons_of_mem _ hmem)⟩
  owned a client hw := (owns_delivered_iff hclients).2 (h.owned a client (hwaiters a client hw))
  apart ho ho' :=
    h.apart ((owns_delivered_iff hclients).1 ho) ((owns_delivered_iff hclients).1 ho')
  waits := hwaits
  gone a ha client c' hc' ho := by
    rw [hclients] at hc'
    obtain ⟨c, hc, rfl⟩ := delivered_eq_some.1 hc'
    have hclosed := hgone a ha client c hc ((owns_delivered_iff hclients).1 ho)
    split
    · exact (Channel.connected_send _ _).trans hclosed
    · exact hclosed
  fresh := hfresh

section Loops

variable {locals : TurnLocals} {chunk : StepChunk} {completed : CompletedRequest}

theorem sendChunk_spec (v : Server σ τ δ) (locals : TurnLocals) (chunk : StepChunk) :
    (v.sendChunk locals chunk).routed = v.routed ++ [chunk.event] ∧
      (v.sendChunk locals chunk).clients = v.delivered chunk.event.1 chunk.event.2 ∧
      (v.sendChunk locals chunk).waiters = v.waiters := by
  obtain ⟨id, text, logprobs⟩ := chunk
  rw [sendChunk, delivered, StepChunk.event]
  dsimp only
  cases v.waiters[id]? <;> exact ⟨rfl, rfl, rfl⟩

/-- Who is found to be gone has a waiter whose channel is closed. -/
theorem gone_sendChunk (v : Server σ τ δ) (locals : TurnLocals) (chunk : StepChunk) :
    ∀ id ∈ (v.sendChunk locals chunk).phase.gone, id ∈ locals.disconnected ∨
      ∃ client, v.waiters[id]? = some client ∧
        ∀ c, v.clients[client]? = some c → c.events.connected = false := by
  obtain ⟨chunkId, text, logprobs⟩ := chunk
  intro id hid
  rw [sendChunk] at hid
  dsimp only at hid
  cases hw : v.waiters[chunkId]? with
  | none =>
      rw [hw] at hid
      exact .inl hid
  | some client =>
      rw [hw] at hid
      by_cases haccepted : (v.sendEvent client (.chunk text logprobs)).1 = true
      · have hgone : id ∈ if (v.sendEvent client (.chunk text logprobs)).1 = true
            then locals.disconnected else locals.disconnected ++ [chunkId] := hid
        rw [if_pos haccepted] at hgone
        exact .inl hgone
      · have hgone : id ∈ if (v.sendEvent client (.chunk text logprobs)).1 = true
            then locals.disconnected else locals.disconnected ++ [chunkId] := hid
        rw [if_neg haccepted, List.mem_append, List.mem_singleton] at hgone
        rcases hgone with hold | rfl
        · exact .inl hold
        · refine .inr ⟨client, hw, fun c hc => ?_⟩
          rw [sendEvent, hc] at haccepted
          simpa using haccepted

theorem Delivers.sendChunk (h : v.Delivers s) {rest : List StepChunk}
    (hphase : v.phase = .sending locals) (hchunks : locals.chunks = chunk :: rest) :
    Delivers (v.sendChunk { locals with chunks := rest } chunk) s := by
  obtain ⟨hrouted, hclients, hwaiters⟩ := v.sendChunk_spec { locals with chunks := rest } chunk
  obtain ⟨disconnected, hsent⟩ := phase_sendChunk v { locals with chunks := rest } chunk
  have hwaits := h.waits
  have hfresh := h.fresh
  rw [hphase] at hwaits hfresh
  refine h.deliver ?_ hrouted (submissions_sendChunk _ _ _) hclients (fun a client hw => hwaiters ▸ hw)
    (fun a client hw => .inl (hwaiters.symm ▸ hw)) ?_ ?_ ?_
  · rw [hphase, hsent, Phase.coming, hchunks]
    rfl
  · rw [hwaiters, hsent]
    exact hwaits
  · intro id hid client c hc ho
    rcases v.gone_sendChunk _ chunk id hid with hold | ⟨client', hw, hclosed⟩
    · exact h.gone id (by rw [hphase]; exact hold) client c hc ho
    · obtain rfl := h.apart ho (h.owned id client' hw)
      exact hclosed c hc
  · rw [hsent]
    exact hfresh

theorem dispatchCompleted_spec (v : Server σ τ δ) (completed : CompletedRequest) :
    (v.dispatchCompleted completed).routed = v.routed ++ [completed.event] ∧
      (v.dispatchCompleted completed).clients =
        v.delivered completed.event.1 completed.event.2 ∧
      ∀ a : RequestId, (v.dispatchCompleted completed).waiters[a]? =
        if completed.requestId = a then none else v.waiters[a]? := by
  rw [Server.dispatchCompleted, delivered, CompletedRequest.event]
  dsimp only
  cases hw : v.waiters[completed.requestId]? with
  | none =>
      refine ⟨rfl, rfl, fun a => ?_⟩
      by_cases heq : completed.requestId = a
      · exact (if_pos heq).symm ▸ heq ▸ hw
      · exact (if_neg heq).symm ▸ rfl
  | some client => exact ⟨rfl, rfl, fun a => IdMap.get_erase _ _ _⟩

/-- A report goes to its waiter, who waits no longer. -/
theorem Delivers.dispatchCompleted (h : v.Delivers s) {rest : List CompletedRequest} {phase : Phase}
    (hcoming : v.phase.coming = (completed :: rest).map CompletedRequest.event)
    (hreports : v.phase.reports = completed :: rest)
    (hnext : phase.coming = rest.map CompletedRequest.event) (hrest : phase.reports = rest)
    (hgone : phase.gone = []) (hreported : completed.requestId ∈ s.reports.map (·.requestId)) :
    Delivers { v.dispatchCompleted completed with phase := phase } s := by
  obtain ⟨hrouted, hclients, hwaiters⟩ := v.dispatchCompleted_spec completed
  have hfresh := h.fresh
  rw [hreports, List.map_cons, List.nodup_cons] at hfresh
  have hold : ∀ (a : RequestId) (client : ClientId),
      (v.dispatchCompleted completed).waiters[a]? = some client →
        completed.requestId ≠ a ∧ v.waiters[a]? = some client := by
    intro a client hw
    rw [hwaiters] at hw
    split at hw
    next => cases hw
    next hne => exact ⟨hne, hw⟩
  have hsub := submissions_dispatchCompleted v completed
  refine @Delivers.deliver _ _ _ v _ s completed.requestId (.done completed) h ?_ hrouted hsub
    hclients (fun a client hw => (hold a client hw).2) (fun a client hw => ?_) (fun a client hw => ?_) ?_ ?_
  · rw [hcoming, hnext]
    rfl
  · by_cases heq : completed.requestId = a
    · refine .inr ⟨heq ▸ hreported, ?_⟩
      rw [hnext, List.map_map]
      exact heq ▸ hfresh.1
    · exact .inl ((hwaiters a).trans ((if_neg heq).trans hw))
  · obtain ⟨hne, hw⟩ := hold a client hw
    refine (h.waits a client hw).imp_right fun hmem => ?_
    rw [hreports] at hmem
    exact hrest ▸ (List.mem_cons.1 hmem).resolve_left hne.symm
  · rw [hgone]
    rintro _ ⟨⟩
  · rw [hrest]
    exact hfresh.2

end Loops

/-- What is to be dispatched has been reported. -/
theorem Delivers.reported (h : v.Delivers s) {report : CompletedRequest}
    (hmem : report ∈ v.phase.reports) : report ∈ s.reports := by
  have hcoming : RequestEvent.done report ∈ under report.requestId (v.routed ++ v.phase.coming) :=
    mem_under.2 (List.mem_append_right _ (Phase.event_mem_coming hmem))
  rw [h.routed] at hcoming
  exact mem_reports_of_event (mem_under.1 hcoming)

/-! ## Cancellations and clients -/

section Clients

variable {f : Channel RequestEvent → Channel RequestEvent}

theorem owns_withEvents_iff :
    (v.withClient k fun c => { c with events := f c.events }).Owns client id ↔ v.Owns client id := by
  constructor
  · rintro ⟨c', n, hc', hreplies⟩
    obtain ⟨c, hc, rfl⟩ := withClient_eq_some.1 hc'
    refine ⟨c, n, hc, ?_⟩
    split at hreplies <;> exact hreplies
  · rintro ⟨c, n, hc, hreplies⟩
    refine ⟨_, n, withClient_eq_some.2 ⟨c, hc, rfl⟩, ?_⟩
    split <;> exact hreplies

/-- A client takes from its channel, or closes it. -/
theorem Delivers.withEvents (h : v.Delivers s)
    (hcontent : ∀ c, v.clients[k]? = some c → (f c.events).content <+: c.events.content)
    (hopen : ∀ c, v.clients[k]? = some c → (f c.events).connected = true →
      c.events.connected = true ∧ (f c.events).content = c.events.content) :
    (v.withClient k fun c => { c with events := f c.events }).Delivers s where
  routed := h.routed
  queue := h.queue
  known submission hmem := (List.length_modify _ _ _).symm ▸ h.known submission hmem
  clients client c' hc' := by
    obtain ⟨c, hc, rfl⟩ := withClient_eq_some.1 hc'
    have hstate : (v.withClient k fun c => { c with events := f c.events }).ClientState s client c :=
      (h.clients client c hc).mono .rfl (fun _ hid => hid) (fun _ _ => List.prefix_rfl)
        fun _ _ _ _ ha => ⟨rfl, ha⟩
    split
    next heq =>
      subst heq
      exact hstate.withEvents (hcontent c hc) (hopen c hc)
    next => exact hstate
  owned id client hw := owns_withEvents_iff.2 (h.owned id client hw)
  apart ho ho' := h.apart (owns_withEvents_iff.1 ho) (owns_withEvents_iff.1 ho')
  waits := h.waits
  gone id hid client c' hc' ho := by
    obtain ⟨c, hc, rfl⟩ := withClient_eq_some.1 hc'
    have hclosed := h.gone id hid client c hc (owns_withEvents_iff.1 ho)
    split
    next heq =>
      subst heq
      by_contra hno
      rw [(hopen c hc (by simpa using hno)).1] at hclosed
      cases hclosed
    next => exact hclosed
  fresh := h.fresh

end Clients

theorem Delivers.clientStep (h : v.Delivers s) (hstep : v.ClientStep v') : v'.Delivers s := by
  cases hstep with
  | @receive client c events hclient hreceive =>
      obtain ⟨hcontent, hconnected, -⟩ := Channel.receive_eq_some hreceive
      refine h.withEvents (f := fun _ => events) ?_ ?_
      · intro c' hc'
        obtain rfl := Option.some.inj (hc'.symm.trans hclient)
        exact hcontent ▸ List.prefix_rfl
      · intro c' hc' hopen
        obtain rfl := Option.some.inj (hc'.symm.trans hclient)
        exact ⟨hconnected ▸ hopen, hcontent⟩
  | disconnect =>
      refine h.withEvents (f := Channel.disconnect) (fun c _ => c.events.content_disconnect) ?_
      rintro c - ⟨⟩
  | close => exact h.of_same rfl rfl rfl rfl rfl rfl (List.Subset.refl _)

theorem submit_eq_some {prompt : String} {params : GenerationParams} {c' : Client}
    (h : (v.submit prompt params).clients[client]? = some c') :
    v.clients[client]? = some c' ∧ client < v.clients.length ∨
      client = v.clients.length ∧ c' = {} := by
  rcases Nat.lt_or_ge client v.clients.length with hlt | hge
  · refine .inl ⟨?_, hlt⟩
    rwa [submit, List.getElem?_append_left hlt] at h
  · rw [submit, List.getElem?_append_right hge, List.getElem?_singleton] at h
    split at h
    next hzero => exact .inr ⟨Nat.le_antisymm (Nat.sub_eq_zero_iff_le.1 hzero) hge, (Option.some.inj h).symm⟩
    next => cases h

/-- A new client waits in the queue. -/
theorem Delivers.submit (h : v.Delivers s) (prompt : String) (params : GenerationParams) :
    (v.submit prompt params).Delivers s := by
  have howns : ∀ {client id}, (v.submit prompt params).Owns client id → v.Owns client id := by
    rintro client id ⟨c', n, hc', hreplies⟩
    rcases submit_eq_some hc' with ⟨hc, -⟩ | ⟨-, rfl⟩
    · exact ⟨c', n, hc, hreplies⟩
    · cases hreplies
  have hsub : (v.submit prompt params).submissions.map (·.client) =
      v.submissions.map (·.client) ++ [v.clients.length] := List.map_append
  have hknown : v.clients.length ∉ v.submissions.map (·.client) := by
    intro hmem
    obtain ⟨submission, hmem, heq⟩ := List.mem_map.1 hmem
    exact (h.known submission hmem).ne heq
  refine ⟨h.routed, ?_, ?_, ?_, ?_, fun ho ho' => h.apart (howns ho) (howns ho'), h.waits, ?_, h.fresh⟩
  · rw [hsub, List.nodup_append]
    refine ⟨h.queue, List.nodup_singleton _, ?_⟩
    rintro a ha b hb rfl
    exact hknown (List.mem_singleton.1 hb ▸ ha)
  · intro submission hmem
    rw [Server.submit, List.length_append]
    rcases List.mem_append.1 hmem with hmem | hmem
    · exact Nat.lt_succ_of_lt (h.known submission hmem)
    · rw [List.mem_singleton.1 hmem]
      exact Nat.lt_succ_self _
  · intro client c' hc'
    rcases submit_eq_some hc' with ⟨hc, hlt⟩ | ⟨rfl, rfl⟩
    · refine (h.clients client c' hc).mono ?_ (fun _ hid => hid) (fun _ _ => List.prefix_rfl)
        fun _ _ _ _ ha => ⟨rfl, ha⟩
      rw [hsub, List.mem_append, List.mem_singleton]
      exact or_iff_left hlt.ne
    · refine .queued rfl ?_ rfl
      rw [hsub]
      exact List.mem_append_right _ List.mem_cons_self
  · intro id client hw
    obtain ⟨c, n, hc, hreplies⟩ := h.owned id client hw
    exact ⟨c, n, (List.getElem?_append_left (List.getElem?_eq_some_iff.1 hc).1).trans hc, hreplies⟩
  · intro id hid client c' hc' ho
    obtain ⟨c, n, hc, -⟩ := howns ho
    rcases submit_eq_some hc' with ⟨hc', -⟩ | ⟨rfl, -⟩
    · exact h.gone id hid client c' hc' (howns ho)
    · rw [List.getElem?_eq_none (Nat.le_refl _)] at hc
      cases hc

/-! ## The loop -/

theorem delivers_start (engine : InferenceEngine σ τ δ) (hs : s.events = []) :
    (start engine).Delivers s where
  routed id := by rw [hs]; rfl
  queue := List.nodup_nil
  known submission hmem := by cases hmem
  clients client c hc := by cases hc
  owned id client hw := by simp [start] at hw
  apart ho _ := by
    obtain ⟨c, n, hc, -⟩ := ho
    cases hc
  waits id client hw := by simp [start] at hw
  gone id hid := by cases hid
  fresh := List.nodup_nil

variable [GPUExecutorTrait σ] [IncrementalDecoder δ] [TokenizerTrait τ δ] {x : Setting τ}

theorem Delivers.cancel (h : v.Delivers s) (hf : v.Follows x s) {locals : TurnLocals}
    {rest : List RequestId} (hphase : v.phase = .cancelling locals)
    (hids : locals.disconnected = id :: rest) :
    Delivers
      { v.cancelDisconnected id with
        phase := .cancelling { locals with disconnected := rest } }
      (s.apply (.cancelRequest id)) := by
  have hcoming : v.phase.coming = locals.completed.map CompletedRequest.event := by rw [hphase]; rfl
  have hgone : ∀ a ∈ id :: rest, a ∈ v.phase.gone := by
    rw [hphase, ← hids]
    exact fun _ ha => ha
  have hold : ∀ {a : RequestId} {client : ClientId}, (v.waiters.erase id)[a]? = some client →
      id ≠ a ∧ v.waiters[a]? = some client := by
    intro a client hw
    rw [IdMap.get_erase] at hw
    split at hw
    next => cases hw
    next hne => exact ⟨hne, hw⟩
  have hrouted := h.routed
  rw [hcoming] at hrouted
  refine ⟨hrouted, h.queue, h.known, fun client c hc => ?_,
    fun a client hw => h.owned a client (hold hw).2, fun ho ho' => h.apart ho ho',
    fun a client hw => ?_, fun a ha => h.gone a (hgone a (List.mem_cons_of_mem _ ha)), ?_⟩
  · refine (h.clients client c hc).mono .rfl (fun _ ha => ha) (fun _ _ => List.prefix_rfl)
      fun a hreplies _ hconnected ha => ⟨rfl, ?_⟩
    have hne : id ≠ a.requestId := by
      intro heq
      have hclosed := h.gone id (hgone id List.mem_cons_self) client c hc
        ⟨c, a.promptTokens, hc, heq ▸ hreplies⟩
      rw [hconnected] at hclosed
      cases hclosed
    rw [Awaited, hcoming] at ha
    exact ha.imp_left fun hw => (IdMap.get_erase_ne hne).trans hw
  · obtain ⟨hne, hw⟩ := hold hw
    have hwaits := h.waits a client hw
    rw [hphase] at hwaits
    exact hwaits.imp_left fun hid => Session.unfinished_cancel hf.steady.inv hid hne.symm
  · have hfresh := h.fresh
    rw [hphase] at hfresh
    exact hfresh

/-- Each step of the loop keeps what is owed to the clients. -/
theorem Delivers.loop (h : v.Delivers s) (hf : v.Follows x s) (hpaced : v.Paced)
    (hstep : v.LoopStep s v' s') : v'.Delivers s' := by
  have hreported : ∀ {completed rest}, v.phase.reports = completed :: rest →
      completed.requestId ∈ s.reports.map (·.requestId) := fun hreports =>
    List.mem_map_of_mem (h.reported (hreports ▸ List.mem_cons_self))
  have hnodup := (hf.loop hstep).steady.inv.reports_nodup
  cases hstep with
  | work hphase => exact h.of_done (by rw [hphase]; rfl) rfl rfl rfl rfl rfl rfl
  | wait hphase => exact h.of_done (by rw [hphase]; rfl) rfl rfl rfl rfl rfl rfl
  | close hphase => exact h.of_done (by rw [hphase]; rfl) rfl rfl rfl rfl rfl rfl
  | accept hphase hsub => exact h.accept hf hphase hsub
  | step hphase _ hevents =>
      obtain ⟨events', hevents', hb⟩ :=
        Session.step_brings (Answering.any σ) hf.steady.inv hf.steady.settled
      rw [hevents] at hevents'
      cases hevents'
      exact h.brings (by rw [hphase]; rfl) hb hnodup rfl rfl rfl rfl rfl rfl rfl
  | send hphase hchunks => exact h.sendChunk hphase hchunks
  | @sent locals hphase hnone =>
      have hcoming : locals.completed.map CompletedRequest.event = v.phase.coming := by
        rw [hphase]
        exact (congrArg (eventsOf · locals.completed) hnone).symm
      refine h.of_same rfl rfl rfl rfl hcoming (by rw [hphase]; rfl) ?_
      rw [hphase]
      exact List.Subset.refl _
  | cancel hphase hids => exact h.cancel hf hphase hids
  | cancelled hphase =>
      exact h.of_same rfl rfl rfl rfl (by rw [hphase]; rfl) (by rw [hphase]; rfl) (List.nil_subset _)
  | dispatch hphase hcompleted =>
      have hreports := (congrArg Phase.reports hphase).trans hcompleted
      refine h.dispatchCompleted ?_ hreports rfl rfl rfl (hreported hreports)
      rw [hphase, ← hcompleted]
      rfl
  | dispatched hphase hnone =>
      refine h.of_done ?_ rfl rfl rfl rfl rfl rfl
      rw [hphase]
      exact congrArg (List.map CompletedRequest.event) hnone
  | progressed hphase => exact h.of_done (by rw [hphase]; rfl) rfl rfl rfl rfl rfl rfl
  | idled hphase => exact h.of_done (by rw [hphase]; rfl) rfl rfl rfl rfl rfl rfl
  | gaveUp hphase _ hs' =>
      have hdrained := hpaced.phase
      rw [hphase] at hdrained
      have hopen : s.engine.scheduler.completedRequests = [] := hf.engine ▸ (hdrained rfl).drained
      have hb := Session.failPending_brings (.any σ) hf.steady.inv hopen _ hs'
      exact h.brings (by rw [hphase]; rfl) hb hnodup rfl rfl rfl rfl rfl rfl rfl
  | route hphase =>
      have hreports := congrArg Phase.reports hphase
      exact h.dispatchCompleted (by rw [hphase]; rfl) hreports rfl rfl rfl (hreported hreports)
  | routed hphase => exact h.of_done (by rw [hphase]; rfl) rfl rfl rfl rfl rfl rfl
  | publish hphase => exact h.of_done (by rw [hphase]; rfl) rfl rfl rfl rfl rfl rfl

end Server

end PagedServing
