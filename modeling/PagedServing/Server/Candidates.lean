import PagedServing.Library.Exchange
import PagedServing.Server.Handlers

/-! # Several candidates in one result

`src/server.rs`: `generate_many`, which runs the candidates of a request as tasks and collects their
results as they end, and `usage_multi`. It returns what a stream of the same candidates tells.
-/

namespace PagedServing

open Relation LabelledLog Exchange

def usageMulti (results : List GenerationResult) : Usage :=
  let prompt := (results.head?.map (·.promptTokens)).getD 0
  let completion := (results.map (·.completionTokens)).sum
  { promptTokens := prompt
    completionTokens := completion
    totalTokens := prompt + completion }

/-- What a task returns, unless it panics. -/
abbrev CandidateResult := Except String (Except ApiError GenerationResult)

inductive CandidateTask where
  | running
  | ended
  | aborted
  deriving DecidableEq

/-- The tasks with what they return, the results that have not been joined, in the order in which
the tasks ended, and what has been collected and returned. -/
structure GenerateMany where
  set : List (CandidateTask × CandidateResult)
  joinable : List CandidateResult := []
  generated : List GenerationResult := []
  returned : Option (Except ApiError (List GenerationResult)) := none

namespace GenerateMany

def start (results : List CandidateResult) : GenerateMany where
  set := results.map (Prod.mk .running)

def abortTask (task : CandidateTask × CandidateResult) : CandidateTask × CandidateResult :=
  if task.1 = .running then (.aborted, task.2) else task

/-- `abort_all`, and the set is dropped with the results in it. -/
def fail (s : GenerateMany) (err : ApiError) : GenerateMany :=
  { s with
    set := s.set.map abortTask
    joinable := []
    returned := some (.error err) }

def join (s : GenerateMany) (rest : List CandidateResult) : CandidateResult → GenerateMany
  | .ok (.ok g) => { s with joinable := rest, generated := s.generated ++ [g] }
  | .ok (.error err) => s.fail err
  | .error joinErr => s.fail (.internal ("candidate task failed: " ++ joinErr))

/-- A task ends, or the loop joins one or finds none. -/
inductive Step : GenerateMany → GenerateMany → Prop
  | complete {s : GenerateMany} {i : Nat} {result : CandidateResult}
      (htask : s.set[i]? = some (.running, result)) :
      Step s { s with
        set := s.set.set i (.ended, result)
        joinable := s.joinable ++ [result] }
  | join {s : GenerateMany} {result : CandidateResult} {rest : List CandidateResult}
      (hreturned : s.returned = none) (hjoinable : s.joinable = result :: rest) :
      Step s (s.join rest result)
  | drained {s : GenerateMany} (hreturned : s.returned = none) (hjoinable : s.joinable = [])
      (hall : ∀ task ∈ s.set, task.1 ≠ .running) :
      Step s { s with returned := some (.ok s.generated) }

/-! ## What is collected -/

/-- The result of a task that has ended. -/
def endedResult (task : CandidateTask × CandidateResult) : Option CandidateResult :=
  if task.1 = .ended then some task.2 else none

/-- The error that a result makes the whole fail with. -/
def errorOf : CandidateResult → Option ApiError
  | .ok (.ok _) => none
  | .ok (.error err) => some err
  | .error joinErr => some (.internal ("candidate task failed: " ++ joinErr))

/-- What holds while the results are collected. -/
structure Collects (results : List CandidateResult) (s : GenerateMany) : Prop where
  returned : s.returned = none
  results : s.set.map Prod.snd = results
  running : ∀ task ∈ s.set, task.1 ≠ .aborted
  ended : (s.set.filterMap endedResult).Perm
    (s.generated.map (fun g => .ok (.ok g)) ++ s.joinable)

/-- What is returned: all results, or the error of one of them, after which no task runs. -/
inductive Returns (results : List CandidateResult) (s : GenerateMany) : Prop
  | all {generated : List GenerationResult} (hreturned : s.returned = some (.ok generated))
      (hall : (generated.map fun g => .ok (.ok g)).Perm results)
      (hended : ∀ task ∈ s.set, task.1 ≠ .running)
  | failed {err : ApiError} {result : CandidateResult} (hreturned : s.returned = some (.error err))
      (hmem : result ∈ results) (herror : errorOf result = some err)
      (hended : ∀ task ∈ s.set, task.1 ≠ .running)

variable {results : List CandidateResult} {s s' : GenerateMany}

theorem collects_start (results : List CandidateResult) : (start results).Collects results where
  returned := rfl
  results := by simp [start, Function.comp_def]
  running := by simp [start]
  ended := by simp [start, endedResult, Function.comp_def]

theorem fst_abortTask_ne (task : CandidateTask × CandidateResult) :
    (abortTask task).1 ≠ .running := by
  rw [abortTask]
  split
  next => simp
  next h => exact h

theorem Collects.fail (h : s.Collects results) {result : CandidateResult}
    {rest : List CandidateResult} (hjoinable : s.joinable = result :: rest) {err : ApiError}
    (herror : errorOf result = some err) : (s.fail err).Returns results := by
  refine .failed rfl (?_ : result ∈ results) herror fun task htask => ?_
  · have hmem : result ∈ s.set.filterMap endedResult := by
      refine h.ended.mem_iff.2 (List.mem_append_right _ ?_)
      rw [hjoinable]
      exact List.mem_cons_self
    obtain ⟨task, htask, hended⟩ := List.mem_filterMap.1 hmem
    rw [endedResult] at hended
    split at hended
    next =>
      obtain rfl := Option.some.inj hended
      exact h.results ▸ List.mem_map_of_mem htask
    next => cases hended
  · obtain ⟨task', -, rfl⟩ := List.mem_map.1 htask
    exact fst_abortTask_ne task'

theorem Collects.step (h : s.Collects results) (hstep : s.Step s') :
    s'.Collects results ∨ s'.Returns results := by
  cases hstep with
  | @complete i result htask =>
      obtain ⟨others, hold, hset⟩ := exists_others htask
      have hnew := hset (.ended, result)
      refine .inl ⟨h.returned, ?_, fun task hmem => ?_, ?_⟩
      · obtain ⟨hi, heq⟩ := List.getElem?_eq_some_iff.1 htask
        rw [List.map_set, ← h.results]
        refine (congrArg ((s.set.map Prod.snd).set i) ?_).trans (List.set_getElem_self (by simpa))
        simp [heq]
      · rcases List.mem_cons.1 (hnew.mem_iff.1 hmem) with rfl | hother
        · simp
        · exact h.running task (hold.mem_iff.2 (List.mem_cons_of_mem _ hother))
      · have hended := (hold.filterMap endedResult).symm.trans h.ended
        refine ((hnew.filterMap endedResult).trans (hended.cons result)).trans ?_
        rw [← List.append_assoc]
        exact (List.perm_append_singleton result _).symm
  | @join result rest _ hjoinable =>
      cases result with
      | error joinErr => exact .inr (h.fail hjoinable rfl)
      | ok result =>
        cases result with
        | error err => exact .inr (h.fail hjoinable rfl)
        | ok g =>
            refine .inl ⟨h.returned, h.results, h.running, ?_⟩
            have hended := h.ended
            rw [hjoinable] at hended
            simpa [GenerateMany.join] using hended
  | drained _ hjoinable hall =>
      refine .inr (.all rfl ?_ hall)
      have hended := h.ended
      rw [hjoinable, List.append_nil] at hended
      refine hended.symm.trans (.of_eq ?_)
      rw [← h.results, ← List.filterMap_eq_map]
      refine List.filterMap_congr fun task htask => ?_
      cases hkind : task.1 with
      | running => exact absurd hkind (hall task htask)
      | ended => simp [endedResult, hkind]
      | aborted => exact absurd hkind (h.running task htask)

theorem Returns.not_step (h : s.Returns results) (hstep : s.Step s') : False := by
  have hended : ∀ task ∈ s.set, task.1 ≠ .running := by cases h <;> assumption
  have hreturned : s.returned ≠ none := by
    cases h with
    | all hreturned => simp [hreturned]
    | failed hreturned => simp [hreturned]
  cases hstep with
  | complete htask => exact hended _ (List.mem_of_getElem? htask) rfl
  | join hnone => exact hreturned hnone
  | drained hnone => exact hreturned hnone

def taskWeight (task : CandidateTask × CandidateResult) : Nat :=
  if task.1 = .running then 2 else 0

/-- Every step lowers this. -/
def weight (s : GenerateMany) : Nat :=
  (s.set.map taskWeight).sum + s.joinable.length + s.returned.isNone.toNat

theorem Step.weight_lt (hstep : s.Step s') : s'.weight < s.weight := by
  have hfail {result : CandidateResult} {rest : List CandidateResult}
      (hreturned : s.returned = none) (hjoinable : s.joinable = result :: rest)
      (err : ApiError) : (s.fail err).weight < s.weight := by
    have hzero : ((s.set.map abortTask).map taskWeight).sum = 0 := by
      refine List.sum_eq_zero fun n hn => ?_
      obtain ⟨task, htask, rfl⟩ := List.mem_map.1 hn
      obtain ⟨task', -, rfl⟩ := List.mem_map.1 htask
      exact if_neg (fst_abortTask_ne task')
    simp only [weight, fail, hzero, hreturned, hjoinable, List.length_cons]
    simp
  cases hstep with
  | @complete i result htask =>
      have hsum : _ + 2 = _ + 0 := sum_set htask taskWeight (.ended, result)
      simp only [weight, List.length_append, List.length_singleton]
      omega
  | @join result rest hreturned hjoinable =>
      cases result with
      | error joinErr => exact hfail hreturned hjoinable _
      | ok result =>
        cases result with
        | error err => exact hfail hreturned hjoinable _
        | ok g =>
            simp only [weight, GenerateMany.join, hjoinable, List.length_cons]
            omega
  | drained hreturned =>
      simp [weight, hreturned]

theorem Collects.exists_step (h : s.Collects results) : ∃ s', s.Step s' := by
  by_cases hall : ∀ task ∈ s.set, task.1 ≠ .running
  · cases hjoinable : s.joinable with
    | nil => exact ⟨_, .drained h.returned hjoinable hall⟩
    | cons result rest => exact ⟨_, .join h.returned hjoinable⟩
  · simp only [not_forall, not_not] at hall
    obtain ⟨task, hmem, hrunning⟩ := hall
    obtain ⟨i, htask⟩ := List.mem_iff_getElem?.1 hmem
    have hget : s.set[i]? = some (.running, task.2) := htask.trans (by rw [← hrunning])
    exact ⟨_, .complete hget⟩

end GenerateMany

/-! ## One result and one stream -/

namespace Candidate

variable {c : Candidate}

theorem generate_events (c : Candidate) (admission : Admission) :
    AppState.generate admission c.events =
      match c.report with
      | none => AppState.generate admission []
      | some completed => generationResult admission.promptTokens completed := by
  rw [Candidate.events, AppState.generate_chunkEvents]
  cases c.report <;> rfl

/-- A result that tells what the last payload of a stream does of this candidate. -/
structure Gives (c : Candidate) (promptTokens : Nat) (g : GenerationResult) : Prop where
  promptTokens : g.promptTokens = promptTokens
  completionTokens : g.completionTokens = c.tokens
  finishReason : g.finishReason = c.finishReason

theorem Succeeds.generate (h : c.Succeeds) (admission : Admission) :
    ∃ g, AppState.generate admission c.events = .ok g ∧ c.Gives admission.promptTokens g := by
  obtain ⟨completed, hreport, hsuccess⟩ := h
  rw [generate_events, hreport]
  refine ⟨_, if_pos hsuccess, rfl, ?_, ?_⟩
  · simp [tokens, hreport]
  · simp [finishReason, hreport]

end Candidate

namespace GenerateMany

variable {τ δ : Type} [TokenizerTrait τ δ]

/-- The result and the last payload of the stream are of the same candidates. -/
structure Agrees (promptTokens : Nat) (generated : List GenerationResult) (p : StreamPayload) :
    Prop where
  finishReasons : (generated.map (·.finishReason)).Perm
    (p.choices.map fun choice => choice.finishReason.getD "")
  completionTokens : p.usage.map (·.completionTokens) = some (usageMulti generated).completionTokens
  promptTokens : (usageMulti generated).promptTokens = promptTokens

end GenerateMany

end PagedServing
