import PagedServing.Engine.Accounting
import PagedServing.Engine.Records
import PagedServing.Scheduler.Prompts
import PagedServing.Scheduler.Refusals

/-! # Steps that get nowhere

A step that reports nobody and leaves nothing active has scheduled nothing, from a state in
which only stuck requests waited. This is what the stall guard of `run` counts.
-/

namespace PagedServing

open Scheduler Relation

namespace Session

variable {σ τ δ : Type} [GPUExecutorTrait σ] [IncrementalDecoder δ] [TokenizerTrait τ δ]
  {x : Setting τ} {answer : List TokenId → TokenId → Prop} {R : σ → Fed → Prop}
  {s : Session σ τ δ}

/-- The next step reports nobody and leaves nothing active. -/
structure Idles (s : Session σ τ δ) : Prop where
  reports : s.step.reports = s.reports
  active : s.step.engine.scheduler.numActiveSequences = 0

theorem Idles.advance (h : s.Idles) (hs : s.engine.scheduler.Sound)
    (hs' : s.advance.engine.scheduler.Sound) :
    s.advance.engine.scheduler.completedRequests = [] ∧
      s.advance.engine.scheduler.prefillSequences = ∅ ∧
      s.advance.engine.scheduler.decodeSequences = ∅ := by
  obtain ⟨hreports, hactive⟩ := h
  have hc := InferenceEngine.collectCompletedRequests_collected hs'
  rw [step_eq hs] at hreports hactive
  rw [collect, hc.scheduler] at hactive
  have hresults : s.advance.engine.collectCompletedRequests.1.1 = [] :=
    List.append_right_eq_self.1 hreports
  rw [hc.results, List.map_eq_nil_iff] at hresults
  rw [numActiveSequences, Nat.add_eq_zero_iff, IdMap.size_eq_zero_iff,
    IdMap.size_eq_zero_iff] at hactive
  exact ⟨hresults, hactive⟩

private theorem Idles.not_moved (h : s.Idles) (hs : s.engine.scheduler.Sound)
    (hs' : s.advance.engine.scheduler.Sound) (r : Request) :
    (∀ seq d, ¬ s.advance.engine.HoldsAt r (.running seq d : Place δ)) ∧
      ∀ req d, ¬ s.advance.engine.HoldsAt r (.ended req d) := by
  obtain ⟨hcompleted, -, hdecode⟩ := h.advance hs hs'
  constructor
  · rintro seq d ⟨hheld, -⟩
    have hheld : s.advance.engine.scheduler.decodeSequences[r.id]? = some seq := hheld
    rw [hdecode] at hheld
    simp at hheld
  · rintro req d ⟨hheld, -⟩
    have hheld : (r.id, req) ∈ s.advance.engine.scheduler.completedRequests := hheld
    rw [hcompleted] at hheld
    cases hheld

theorem Idles.output_isEmpty (h : s.Idles) (hA : Answering σ answer R)
    (hi : s.Inv answer R x) (hsettled : Settled s.calls) : s.engine.output.isEmpty = true := by
  have hs := hi.sound
  have hs' := (advance_stage hA hi hsettled).sound
  by_contra hfull
  obtain ⟨seq, hseq⟩ : ∃ seq, seq ∈ s.engine.output.prefillSequences ++
      s.engine.output.decodeSequences := by
    by_contra hnone
    simp only [not_exists, ← List.eq_nil_iff_forall_not_mem, List.append_eq_nil_iff] at hnone
    exact hfull (by simp [SchedulerOutput.isEmpty, hnone.1, hnone.2])
  obtain ⟨r, hr, w, entry, d, -, ht, hid, -, hlists⟩ := hi.listed_steps hseq
  have hmem : r.id ∈ s.engine.output.seqIds := hid ▸ hlists.mem_seqIds
  obtain ⟨hrunning, hended⟩ := h.not_moved hs hs' r
  rcases InferenceEngine.pushing_cases hi.prompts with
    ⟨hempty, -⟩ | ⟨pipeline, reason, heq, -⟩ | ⟨b, output, pipeline, hsent, heq⟩
  · exact hfull hempty
  · obtain ⟨seq', hseq'⟩ := InferenceEngine.output_active hs r.id hmem
    have hadvance : s.engine.advance = (s.engine.batchFailed pipeline reason, []) := by
      rw [InferenceEngine.advance_eq_pushing, heq]
      rfl
    obtain ⟨hcompleted, -⟩ := h.advance hs hs'
    have hheld : (r.id, seq'.request.fail reason) ∈
        (s.engine.batchFailed pipeline reason).scheduler.completedRequests := by
      refine (InferenceEngine.batchFailed_removed hs pipeline reason).holds_of_mem ?_
      exact List.mem_filterMap.2 ⟨r.id, hmem, by rw [hseq']; rfl⟩
    rw [Session.advance, hadvance] at hcompleted
    exact List.not_mem_nil (hcompleted ▸ hheld)
  · cases hi.turn ht.place with
    | passed hpushed _ _ =>
        refine hpushed ?_
        rw [heq, InferenceEngine.keys_generated hs hsent]
        exact (InferenceEngine.mem_output_iff hs hsent).2 hmem
    | @served seq _ d row _ _ _ _ hplace _ =>
        rcases x.settle_cases (seq.next row) d row.token with ⟨d', heq⟩ | ⟨req, d', heq⟩
        · exact hrunning _ d' (heq ▸ hplace)
        · exact hended req d' (heq ▸ hplace)

theorem Idles.advance_eq (h : s.Idles) (hA : Answering σ answer R) (hi : s.Inv answer R x)
    (hsettled : Settled s.calls) : s.engine.advance = (s.engine.scheduled, []) := by
  rw [InferenceEngine.advance, if_pos (h.output_isEmpty hA hi hsettled)]

theorem Idles.idle (h : s.Idles) (hA : Answering σ answer R) (hi : s.Inv answer R x)
    (hsettled : Settled s.calls) : s.engine.scheduler.numActiveSequences = 0 := by
  have hs := hi.sound
  have hs' := (advance_stage hA hi hsettled).sound
  rw [numActiveSequences, hi.idle, Std.ExtTreeMap.size_empty, Nat.zero_add, IdMap.size_eq_zero_iff,
    IdMap.eq_empty_iff]
  intro a
  by_contra hsome
  obtain ⟨seq, hseq⟩ := Option.ne_none_iff_exists'.1 hsome
  have hheld : s.engine.scheduler.Holds a (.decode seq) := hseq
  obtain ⟨r, -, rfl⟩ := hi.exists_admitted (mem_ids_iff.2 ⟨_, hheld⟩)
  obtain ⟨d, hd⟩ := hi.exists_decoder hheld (by simp)
  have hplace : s.engine.HoldsAt r (.running seq d) := ⟨hheld, hd⟩
  obtain ⟨hrunning, hended⟩ := h.not_moved hs hs' r
  rw [Session.advance, h.advance_eq hA hi hsettled] at hrunning hended
  rcases InferenceEngine.place_of_schedule hs hplace with
    ⟨-, hsame | ⟨req, d', reason, -, hfailed⟩⟩ | ⟨_, _, _, -, hlists, -⟩
  · exact hrunning seq d hsame
  · exact hended _ _ hfailed
  · have hlisted := hlists.mem_seqIds
    rw [SchedulerOutput.seqIds_of_isEmpty (h.output_isEmpty hA hi hsettled)] at hlisted
    cases hlisted

theorem Idles.stalled (h : s.Idles) (hA : Answering σ answer R) (hsteady : s.Steady answer R x) :
    s.step.engine.scheduler.Stalled ∧ s.step.chunks = s.chunks := by
  have hi := hsteady.inv
  have hsettled := hsteady.settled
  have hs := hi.sound
  have hs' := (advance_stage hA hi hsettled).sound
  have hidle := h.idle hA hi hsettled
  have hc : s.engine.scheduler.config.Valid := hi.config ▸ hi.valid
  have hempty := h.output_isEmpty hA hi hsettled
  have hadvance : s.advance.engine = s.engine.scheduled :=
    congrArg Prod.fst (h.advance_eq hA hi hsettled)
  obtain ⟨hcompleted, hactive⟩ := h.advance hs hs'
  rw [hadvance] at hcompleted
  have hstuck : ∀ p ∈ s.engine.scheduler.pendingQueue, s.engine.scheduler.Stuck p.request := by
    intro p hp
    by_contra hno
    obtain ⟨q, -, ⟨seq, hseq, -⟩ | ⟨reason, hended⟩⟩ :=
      (hs.wf.progress_iff hc hidle).2 ⟨p, hp, hno⟩
    · have hlisted : seq.seqId ∈ s.engine.output.seqIds :=
        List.mem_map_of_mem (List.mem_append_left _ hseq)
      rw [SchedulerOutput.seqIds_of_isEmpty hempty] at hlisted
      cases hlisted
    · exact List.not_mem_nil (hcompleted ▸ hended)
  have hcollected := InferenceEngine.collectCompletedRequests_collected hs'
  have hscheduler : s.step.engine.scheduler =
      s.engine.scheduler.schedule.2.takeCompletedWithSeqIds.2 := by
    rw [step_eq hs, collect, hcollected.scheduler, hadvance]
    rfl
  have hsound : s.step.engine.scheduler.Sound := (hsteady.step hA).inv.sound
  have hevolves := Moves.evolves hs.wf (schedule_moves hs.wf)
  have hconfig : s.step.engine.scheduler.config = s.engine.scheduler.config := by
    rw [hscheduler]
    exact hevolves.config
  have hfresh : Fresh s.engine.scheduler.config s.step.engine.scheduler.passStart :=
    ⟨wf_passStart hsound.wf, h.active, hconfig, rfl, rfl⟩
  refine ⟨hsound.wf.stalled h.active fun p hp => ?_, ?_⟩
  · have hbefore : p ∈ s.engine.scheduler.pendingQueue := by
      rw [hscheduler] at hp
      exact (schedule_keepsPrompts hs.wf).pending hp
    have hfreshStuck := (hfresh.stuck_iff hs.wf rfl p.request).2 (hstuck p hbefore)
    exact (passStart_stuck_iff hsound.wf h.active p.request).1 hfreshStuck
  · have htexts : s.advance.engine.collectCompletedRequests.1.2 = [] := by
      rw [InferenceEngine.collected_tails hs', hadvance, hcompleted]
      rfl
    rw [step_eq hs, collect, htexts, List.append_nil, Session.advance, Session.stream,
      h.advance_eq hA hi hsettled]
    exact List.append_nil _

end Session

/-! ## The guard of `run` -/

namespace InferenceEngine

variable {σ τ δ : Type} [GPUExecutorTrait σ] [IncrementalDecoder δ] [TokenizerTrait τ δ]

/-- What a turn of the loop of `run` comes to. -/
inductive RunTurn (σ τ δ : Type) where
  | finished
  | next (completed : List CompletedRequest) (e : InferenceEngine σ τ δ) (idleSteps : Nat)
  | stalled (completed : List CompletedRequest) (e : InferenceEngine σ τ δ)

def runTurn (e : InferenceEngine σ τ δ) (idleSteps : Nat) : RunTurn σ τ δ :=
  if !e.scheduler.hasPendingWork then .finished
  else
    let (result, e) := e.stepEvents
    let completed :=
      match result with
      | .ok events => events.completed
      | .error _ => []
    if !completed.isEmpty || 0 < e.scheduler.numActiveSequences then .next completed e 0
    else if stallLimit ≤ idleSteps + 1 then .stalled completed e
    else .next completed e (idleSteps + 1)

def RunTurn.follow (fuel : Nat) (e : InferenceEngine σ τ δ) (allCompleted : List CompletedRequest) :
    RunTurn σ τ δ → Option (List CompletedRequest × InferenceEngine σ τ δ)
  | .finished => some (allCompleted, e)
  | .next completed e idleSteps => runLoop fuel e (allCompleted ++ completed) idleSteps
  | .stalled completed e =>
      some (allCompleted ++ completed, (e.failPendingRequests stallReason).2)

theorem runLoop_succ (fuel : Nat) (e : InferenceEngine σ τ δ)
    (allCompleted : List CompletedRequest) (idleSteps : Nat) :
    runLoop (fuel + 1) e allCompleted idleSteps =
      (e.runTurn idleSteps).follow fuel e allCompleted := by
  rw [runLoop, runTurn]
  split
  · rfl
  · rcases e.stepEvents with ⟨err | events, e'⟩
    · dsimp only
      split
      · rfl
      · split <;> rfl
    · dsimp only
      split
      · rfl
      · split <;> rfl

/-- The engines and counters with which the loop of `run` begins its turns. -/
inductive RunReaches (e : InferenceEngine σ τ δ) : InferenceEngine σ τ δ → Nat → Prop
  | start : RunReaches e e.collectCompletedRequests.2 0
  | next {e' e'' : InferenceEngine σ τ δ} {idleSteps idleSteps' : Nat}
      {completed : List CompletedRequest} (h : RunReaches e e' idleSteps)
      (hturn : e'.runTurn idleSteps = .next completed e'' idleSteps') :
      RunReaches e e'' idleSteps'

/-- The engine and the counter after so many turns that go on. -/
def runTurns (e : InferenceEngine σ τ δ) : Nat → Option (InferenceEngine σ τ δ × Nat)
  | 0 => some (e.collectCompletedRequests.2, 0)
  | n + 1 => (e.runTurns n).bind fun p =>
      match p.1.runTurn p.2 with
      | .next _ e idleSteps => some (e, idleSteps)
      | _ => none

theorem runReaches_runTurns {e e' : InferenceEngine σ τ δ} {n idleSteps : Nat}
    (h : e.runTurns n = some (e', idleSteps)) : RunReaches e e' idleSteps := by
  induction n generalizing e' idleSteps with
  | zero =>
    obtain ⟨rfl, rfl⟩ := Prod.mk.inj (Option.some.inj h)
    exact .start
  | succ n ih =>
    obtain ⟨⟨before, idle⟩, hbefore, hturn⟩ := Option.bind_eq_some_iff.1 h
    dsimp only at hturn
    split at hturn
    next completed _ _ heq =>
      obtain ⟨rfl, rfl⟩ := Prod.mk.inj (Option.some.inj hturn)
      exact .next (ih hbefore) heq
    next => cases hturn

/-- What waits when the guard of this turn fires. -/
def RunTurn.waiting : RunTurn σ τ δ → List PendingRequest
  | .stalled _ e => e.scheduler.pendingQueue
  | _ => []

end InferenceEngine

namespace Session

variable {σ τ δ : Type} [GPUExecutorTrait σ] [IncrementalDecoder δ] [TokenizerTrait τ δ]
  {x : Setting τ} {answer : List TokenId → TokenId → Prop} {R : σ → Fed → Prop}
  {s : Session σ τ δ}

open InferenceEngine

theorem runTurn_cases (hs : s.engine.scheduler.Sound) (idleSteps : Nat) :
    s.engine.runTurn idleSteps = .finished ∨
      (∃ completed idleSteps', s.engine.runTurn idleSteps =
        .next completed s.step.engine idleSteps') ∨
      (s.Idles ∧ stallLimit ≤ idleSteps + 1 ∧
        s.engine.runTurn idleSteps = .stalled [] s.step.engine) := by
  rw [runTurn]
  split
  · exact .inl rfl
  · obtain ⟨events, hstep, hreports⟩ := step_spec hs
    rw [hstep]
    dsimp only
    split
    · exact .inr (.inl ⟨_, _, rfl⟩)
    next hmoved =>
      simp only [Bool.or_eq_true, Bool.not_eq_true', List.isEmpty_eq_false_iff, ne_eq,
        decide_eq_true_eq, not_or, not_not, Nat.not_lt, Nat.le_zero] at hmoved
      obtain ⟨hnone, hactive⟩ := hmoved
      rw [hnone, List.append_nil] at hreports
      split
      next hlimit => exact .inr (.inr ⟨⟨hreports, hactive⟩, hlimit, by rw [hnone]⟩)
      next => exact .inr (.inl ⟨_, _, rfl⟩)

theorem runReaches_acts (hA : Answering σ answer R) (h : s.Steady answer R x)
    {e : InferenceEngine σ τ δ} {idleSteps : Nat} (hreaches : RunReaches s.engine e idleSteps) :
    ∃ s', ReflTransGen Act s s' ∧ s'.engine = e := by
  induction hreaches with
  | start => exact ⟨s.collect, .single (.collect s), rfl⟩
  | @next e' e'' idleSteps idleSteps' completed _ hturn ih =>
    obtain ⟨s', hacts, rfl⟩ := ih
    have hsteady := acts_steady hA h hacts
    rcases runTurn_cases hsteady.inv.sound idleSteps with
      heq | ⟨_, _, heq⟩ | ⟨-, -, heq⟩
    · rw [heq] at hturn
      cases hturn
    · rw [heq] at hturn
      cases hturn
      exact ⟨s'.step, hacts.tail (.step s'), rfl⟩
    · rw [heq] at hturn
      cases hturn

theorem runTurn_stalled (hA : Answering σ answer R) (h : s.Steady answer R x)
    {e e' : InferenceEngine σ τ δ} {idleSteps : Nat} {completed : List CompletedRequest}
    (hreaches : RunReaches s.engine e idleSteps)
    (hturn : e.runTurn idleSteps = .stalled completed e') : e'.scheduler.Stalled := by
  obtain ⟨s', hacts, rfl⟩ := runReaches_acts hA h hreaches
  have hsteady := acts_steady hA h hacts
  rcases runTurn_cases hsteady.inv.sound idleSteps with heq | ⟨_, _, heq⟩ | ⟨hidles, -, heq⟩
  · rw [heq] at hturn
    cases hturn
  · rw [heq] at hturn
    cases hturn
  · rw [heq] at hturn
    cases hturn
    exact (hidles.stalled hA hsteady).1

end Session

end PagedServing
