import PagedServing.Engine.Refinement
import PagedServing.Scheduler.Admission
import PagedServing.Server.Following

/-! # The pace of the engine loop

A turn either moves somebody or leaves only requests that can never start. A hundred turns of
the second kind in a row make the loop fail what is pending.
-/

namespace PagedServing

open Relation

/-- Nothing is active or has ended, and whatever is pending can never start. -/
structure Scheduler.Hopeless (s : Scheduler) : Prop where
  stalled : s.Stalled
  drained : s.completedRequests = []

/-- Whatever work such a state has is pending. -/
theorem Scheduler.Stalled.pending {s : Scheduler} (h : s.Stalled) (hwork : s.hasPendingWork = true) :
    s.pendingQueue ≠ [] := by
  rintro hnone
  have hidle := h.idle
  rw [numActiveSequences, Nat.add_eq_zero_iff, IdMap.size_eq_zero_iff,
    IdMap.size_eq_zero_iff] at hidle
  simp [hasPendingWork, hnone, hidle.1, hidle.2] at hwork

namespace TurnLocals

/-- What makes a turn count as progress. -/
def Moved (locals : TurnLocals) (s : Scheduler) : Prop :=
  0 < locals.completedLen ∨ 0 < locals.chunksLen ∨ 0 < s.numActiveSequences

structure Fair (locals : TurnLocals) (s : Scheduler) : Prop where
  chunks : locals.chunksLen = 0 → locals.chunks = [] ∧ locals.disconnected = []
  hopeless : ¬ locals.Moved s → s.Hopeless

variable {locals : TurnLocals} {s : Scheduler}

theorem Fair.chunksLen_pos (h : locals.Fair s)
    (hsome : locals.chunks ≠ [] ∨ locals.disconnected ≠ []) : 0 < locals.chunksLen := by
  by_contra hno
  obtain ⟨hchunks, hdisconnected⟩ := h.chunks (Nat.eq_zero_of_not_pos hno)
  exact hsome.elim (· hchunks) (· hdisconnected)

theorem fair_of_chunks (h : 0 < locals.chunksLen) : locals.Fair s where
  chunks hnone := absurd hnone h.ne'
  hopeless hno := absurd (.inr (.inl h)) hno

end TurnLocals

def Phase.Paced (s : Scheduler) : Phase → Prop
  | .sending locals => locals.Fair s
  | .cancelling locals => locals.Fair s
  | .dispatching locals => locals.Fair s
  | .judging progressed => progressed = false → s.Hopeless
  | .recv => s.hasPendingWork = false
  | .returned => s.hasPendingWork = false
  | _ => True

namespace Server

variable {σ τ δ : Type}

structure Paced (v : Server σ τ δ) : Prop where
  phase : v.phase.Paced v.engine.scheduler
  idle : (∀ rest, v.phase ≠ .stalled rest) → v.idleSteps < InferenceEngine.stallLimit
  returned : v.phase = .returned → v.submissions = [] ∧ v.accepting = false

theorem paced_start (engine : InferenceEngine σ τ δ) : (start engine).Paced where
  phase := trivial
  idle _ := Nat.zero_lt_succ _
  returned h := by cases h

variable {x : Setting τ} {v v' : Server σ τ δ} {s s' : Session σ τ δ}

/-- A step that leaves the counter alone. -/
private theorem Paced.next (h : v.Paced) (hopen : ∀ rest, v.phase ≠ .stalled rest)
    (hidle : v'.idleSteps = v.idleSteps) (hphase : v'.phase.Paced v'.engine.scheduler)
    (hne : v'.phase ≠ .returned) : v'.Paced where
  phase := hphase
  idle _ := hidle ▸ h.idle hopen
  returned heq := absurd heq hne

theorem Paced.clientStep (h : v.Paced) (hstep : v.ClientStep v') : v'.Paced := by
  cases hstep with
  | receive => exact ⟨h.phase, h.idle, h.returned⟩
  | disconnect => exact ⟨h.phase, h.idle, h.returned⟩
  | close => exact ⟨h.phase, h.idle, fun hphase => ⟨(h.returned hphase).1, rfl⟩⟩

theorem Paced.submit (h : v.Paced) (hopen : v.accepting = true) (prompt : String)
    (params : GenerationParams) : (v.submit prompt params).Paced where
  phase := h.phase
  idle := h.idle
  returned hphase := by
    have hclosed := (h.returned hphase).2
    rw [hopen] at hclosed
    cases hclosed

variable [GPUExecutorTrait σ] [IncrementalDecoder δ] [TokenizerTrait τ δ]

/-- A step that moves nobody leaves nobody who can start. -/
theorem Follows.fair_step (hf : v.Follows x s) {events : StepEvents}
    (hevents : s.engine.stepEvents = (.ok events, s.step.engine)) :
    TurnLocals.Fair
      { chunks := events.chunks
        completed := events.completed
        completedLen := events.completed.length
        chunksLen := events.chunks.length } s.step.engine.scheduler := by
  refine ⟨fun hnone => ⟨List.length_eq_zero_iff.1 hnone, rfl⟩, fun hno => ?_⟩
  simp only [TurnLocals.Moved, not_or, Nat.not_lt, Nat.le_zero, List.length_eq_zero_iff] at hno
  obtain ⟨events', hevents', hbrings⟩ :=
    Session.step_brings (Answering.any σ) hf.steady.inv hf.steady.settled
  obtain rfl : events = events' := by
    rw [hevents] at hevents'
    simpa using hevents'
  have hidles : s.Idles := ⟨by rw [hbrings.reported, hno.1, List.append_nil], hno.2.2⟩
  exact ⟨(hidles.stalled (.any σ) hf.steady).1, hbrings.drained⟩

theorem Paced.loop (h : v.Paced) (hf : v.Follows x s) (hstep : v.LoopStep s v' s') : v'.Paced := by
  have hpaced := h.phase
  cases hstep with
  | work hphase =>
      exact h.next (by simp [hphase]) rfl trivial (by simp)
  | wait hphase hidle =>
      exact h.next (by simp [hphase]) rfl hidle (by simp)
  | close hphase hnone hclosed =>
      rw [hphase] at hpaced
      exact ⟨hpaced, fun _ => h.idle (by simp [hphase]), fun _ => ⟨hnone, hclosed⟩⟩
  | accept hphase =>
      exact h.next (by rcases hphase with hphase | hphase <;> simp [hphase])
        (idleSteps_admitSubmission _ _) trivial (by simp)
  | step hphase _ hevents =>
      exact h.next (by simp [hphase]) rfl (hf.fair_step hevents) (by simp)
  | @send locals chunk rest hphase hchunks =>
      rw [hphase] at hpaced
      obtain ⟨disconnected, hsent⟩ := phase_sendChunk v { locals with chunks := rest } chunk
      have hmoved := hpaced.chunksLen_pos (.inl (hchunks ▸ List.cons_ne_nil _ _))
      refine h.next (by simp [hphase]) (idleSteps_sendChunk _ _ _) ?_ (by simp [hsent])
      rw [hsent]
      exact TurnLocals.fair_of_chunks hmoved
  | sent hphase =>
      rw [hphase] at hpaced
      exact h.next (by simp [hphase]) rfl hpaced (by simp)
  | @cancel locals id rest hphase hids =>
      rw [hphase] at hpaced
      have hmoved := hpaced.chunksLen_pos (.inr (hids ▸ List.cons_ne_nil _ _))
      exact h.next (by simp [hphase]) rfl (TurnLocals.fair_of_chunks hmoved) (by simp)
  | cancelled hphase =>
      rw [hphase] at hpaced
      exact h.next (by simp [hphase]) rfl hpaced (by simp)
  | @dispatch locals completed rest hphase hcompleted =>
      rw [hphase] at hpaced
      refine h.next (by simp [hphase]) (idleSteps_dispatchCompleted _ _) ?_ (by simp)
      rw [engine_dispatchCompleted]
      exact ⟨hpaced.chunks, hpaced.hopeless⟩
  | @dispatched locals hphase =>
      rw [hphase] at hpaced
      refine h.next (by simp [hphase]) rfl (fun hno => hpaced.hopeless ?_) (by simp)
      simp only [Bool.or_eq_false_iff, decide_eq_false_iff_not] at hno
      exact fun hmoved => hmoved.elim hno.1.1 fun hmoved => hmoved.elim hno.1.2 hno.2
  | progressed => exact ⟨trivial, fun _ => Nat.zero_lt_succ _, by rintro ⟨⟩⟩
  | idled _ hlimit => exact ⟨trivial, fun _ => hlimit, by rintro ⟨⟩⟩
  | gaveUp => exact ⟨trivial, fun hopen => absurd rfl (hopen _), by rintro ⟨⟩⟩
  | route => exact ⟨trivial, fun hopen => absurd rfl (hopen _), by rintro ⟨⟩⟩
  | routed => exact ⟨trivial, fun _ => Nat.zero_lt_succ _, by rintro ⟨⟩⟩
  | publish hphase => exact h.next (by simp [hphase]) rfl trivial (by simp)

theorem Reachable.paced {config : EngineConfig} {tokenizer : τ} {gpuExecutor : σ}
    (h : Reachable config tokenizer gpuExecutor v) : v.Paced := by
  obtain ⟨s, -, hpaced⟩ := h.follows (P := fun v _ => v.Paced) (paced_start _)
    (fun hf hpaced hstep => hpaced.loop hf hstep) (fun hpaced hstep => hpaced.clientStep hstep)
    (fun prompt params hopen hpaced => hpaced.submit hopen prompt params)
  exact hpaced

/-- Whenever a stall guard fires, nothing is active or allocated, and no later pass could
start what it fails. -/
theorem stalled_of_guard (config : EngineConfig) (tokenizer : τ) (gpuExecutor : σ) :
    (∀ s : Session σ τ δ, s.Reaches config tokenizer gpuExecutor →
      ∀ (e e' : InferenceEngine σ τ δ) (idleSteps : Nat) (completed : List CompletedRequest),
        InferenceEngine.RunReaches s.engine e idleSteps →
        e.runTurn idleSteps = .stalled completed e' → e'.scheduler.Stalled) ∧
      ∀ v : Server σ τ δ, Reachable config tokenizer gpuExecutor v → v.phase = .judging false →
        InferenceEngine.stallLimit ≤ v.idleSteps + 1 → v.engine.scheduler.Stalled := by
  constructor
  · intro s hs e e' idleSteps completed hreaches hturn
    obtain ⟨chunks, hsteady, -⟩ := hs.steady
    exact Session.runTurn_stalled (.any σ) hsteady hreaches hturn
  · intro v hv hphase _
    have hpaced := hv.paced.phase
    rw [hphase] at hpaced
    exact (hpaced rfl).stalled

/-! ## Two loops that give up -/

/-- A prompt of thirteen characters takes fifteen tokens, and its pool has one block. -/
def tightSession : Session (FunctionBackend Session.stopAtFour) SimpleTokenizer SimpleDecoder :=
  (Session.new History.tightConfig SimpleTokenizer.new ⟨fun _ => []⟩).submit
    "aaaaaaaaaaaaa" { maxTokens := 3 }

def tightServer : Server (FunctionBackend Session.stopAtFour) SimpleTokenizer SimpleDecoder :=
  (start (Session.new History.tightConfig SimpleTokenizer.new ⟨fun _ => []⟩).engine).submit
    "aaaaaaaaaaaaa" { maxTokens := 3 }

/-- The next thing the loop does is to fail what is pending. -/
def givesUp (v : Server σ τ δ) : Bool :=
  match v.phase with
  | .judging false => decide (InferenceEngine.stallLimit ≤ v.idleSteps + 1)
  | _ => false

omit [GPUExecutorTrait σ] [IncrementalDecoder δ] [TokenizerTrait τ δ] in
theorem givesUp_eq_true (h : v.givesUp = true) :
    v.phase = .judging false ∧ InferenceEngine.stallLimit ≤ v.idleSteps + 1 := by
  rw [givesUp] at h
  split at h
  next hphase => exact ⟨hphase, of_decide_eq_true h⟩
  next => cases h

theorem stalled_of_guard_tight :
    (∃ e e' completed, InferenceEngine.RunReaches tightSession.engine e 99 ∧
      e.runTurn 99 = .stalled completed e' ∧ e'.scheduler.pendingQueue ≠ [] ∧
        e'.scheduler.Stalled) ∧
      ∃ v, loopSteps 699 tightServer = some v ∧ v.givesUp = true ∧
        v.engine.scheduler.pendingQueue ≠ [] ∧ v.engine.scheduler.Stalled := by
  have hguard := stalled_of_guard History.tightConfig SimpleTokenizer.new
    (⟨fun _ => []⟩ : FunctionBackend Session.stopAtFour)
  have hvalid : History.tightConfig.validate = .ok () := by decide +kernel
  constructor
  · have hrun : (tightSession.engine.runTurns 99).map (fun p =>
        (p.2, (p.1.runTurn p.2).waiting.length)) = some (99, 1) := by decide +kernel
    obtain ⟨⟨e, idleSteps⟩, hturns, hwaiting⟩ := Option.map_eq_some_iff.1 hrun
    obtain ⟨rfl, hwaiting⟩ := Prod.mk.inj hwaiting
    have hreaches := InferenceEngine.runReaches_runTurns hturns
    dsimp only at hwaiting
    cases hturn : e.runTurn 99 with
    | stalled completed e' =>
        rw [hturn] at hwaiting
        refine ⟨e, e', completed, hreaches, hturn, List.ne_nil_of_length_pos ?_, ?_⟩
        · exact hwaiting ▸ Nat.zero_lt_one
        · exact hguard.1 tightSession (.apply (.new hvalid) (.submitRequest _ _)) e e' 99 completed
            hreaches hturn
    | _ =>
        rw [hturn] at hwaiting
        cases hwaiting
  · have hrun : (loopSteps 699 tightServer).map (fun v =>
        (v.givesUp, v.engine.scheduler.pendingQueue.length)) = some (true, 1) := by decide +kernel
    obtain ⟨v, hv, hfires⟩ := Option.map_eq_some_iff.1 hrun
    obtain ⟨hfires, hwaiting⟩ := Prod.mk.inj hfires
    have hreachable := (Reachable.start hvalid).step
      (.submit "aaaaaaaaaaaaa" { maxTokens := 3 } rfl (by decide)) |>.loopSteps hv
    refine ⟨v, hv, hfires, List.ne_nil_of_length_pos ?_, ?_⟩
    · exact hwaiting ▸ Nat.zero_lt_one
    · exact hguard.2 v hreachable (givesUp_eq_true hfires).1 (givesUp_eq_true hfires).2

end Server

end PagedServing
