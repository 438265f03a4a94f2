import PagedServing.Scheduler.History
import PagedServing.Scheduler.Labels
import PagedServing.Scheduler.Updates

/-! # The prompts of a scheduler

No operation alters the prompt of an unfinished request: whatever is waiting or active
came in with the prompt that it still has.
-/

namespace PagedServing

open Relation

namespace Scheduler

variable {s s' s'' : Scheduler} {id : SeqId} {seq : Sequence} {tokens : List TokenId}

/-- A waiting or active request has this prompt. -/
def Prompts (s : Scheduler) (tokens : List TokenId) : Prop :=
  (∃ p ∈ s.pendingQueue, p.request.inputTokens = tokens) ∨
    ∃ id seq, s.active id = some seq ∧ seq.request.inputTokens = tokens

/-- Every prompt of `s'` is one of `s`. -/
structure KeepsPrompts (s s' : Scheduler) : Prop where
  pending : s'.pendingQueue ⊆ s.pendingQueue
  active : ∀ {id : SeqId} {seq' : Sequence}, s'.active id = some seq' →
    s.Prompts seq'.request.inputTokens

namespace KeepsPrompts

theorem prompts (h : s.KeepsPrompts s') (ht : s'.Prompts tokens) : s.Prompts tokens := by
  rcases ht with ⟨p, hp, rfl⟩ | ⟨id, seq, hseq, rfl⟩
  · exact .inl ⟨p, h.pending hp, rfl⟩
  · exact h.active hseq

theorem of_active (hpending : s'.pendingQueue ⊆ s.pendingQueue)
    (hactive : ∀ {id : SeqId} {seq' : Sequence}, s'.active id = some seq' →
      ∃ seq, s.active id = some seq ∧ seq.request.inputTokens = seq'.request.inputTokens) :
    s.KeepsPrompts s' := by
  refine ⟨hpending, fun {id seq'} h => ?_⟩
  obtain ⟨seq, hseq, heq⟩ := hactive h
  exact .inr ⟨id, seq, hseq, heq⟩

theorem of_subset (hpending : s'.pendingQueue ⊆ s.pendingQueue)
    (hactive : ∀ id, s'.active id = s.active id) : s.KeepsPrompts s' :=
  of_active hpending fun {id _} h => ⟨_, hactive id ▸ h, rfl⟩

theorem refl (s : Scheduler) : s.KeepsPrompts s := of_subset (List.Subset.refl _) fun _ => rfl

theorem trans (h : s.KeepsPrompts s') (h' : s'.KeepsPrompts s'') : s.KeepsPrompts s'' :=
  ⟨List.Subset.trans h'.pending h.pending, fun hseq => h.prompts (h'.active hseq)⟩

end KeepsPrompts

/-! ## Terminations -/

theorem retire_keepsPrompts (hw : s.Wf) {state : RequestState} (h : s.retire id state = some s') :
    s.KeepsPrompts s' := by
  obtain ⟨seq, hr⟩ := retire_spec hw h
  refine .of_active (hr.pending ▸ List.Subset.refl _) fun {a seq'} hseq' => ?_
  rw [hr.active] at hseq'
  split at hseq'
  next => cases hseq'
  next => exact ⟨seq', hseq', rfl⟩

theorem completeSequence_keepsPrompts (hw : s.Wf) (id : SeqId) :
    s.KeepsPrompts (s.completeSequence id) := by
  rw [completeSequence]
  cases h : s.retire id .completed with
  | none => exact .refl s
  | some s' => exact retire_keepsPrompts hw h

theorem failSequence_keepsPrompts (hw : s.Wf) (id : SeqId) (reason : String) :
    s.KeepsPrompts (s.failSequence id reason) := by
  rcases failSequence_cases s id reason with h | ⟨-, p, queue, -, -, hperm, heq⟩ | ⟨-, -, heq⟩
  · exact retire_keepsPrompts hw h
  · rw [heq]
    exact .of_subset (fun q hq => hperm.mem_iff.2 (List.mem_cons_of_mem _ hq)) fun _ => rfl
  · rw [heq]
    exact .refl s

theorem failByRequestId_keepsPrompts (hw : s.Wf) (requestId : RequestId) (reason : String) :
    s.KeepsPrompts (s.failByRequestId requestId reason).2 := by
  rw [failByRequestId]
  split
  next => exact failSequence_keepsPrompts hw _ reason
  next => exact .refl s

/-- A loop over operations that keep the prompts. -/
theorem foldl_keepsPrompts {α : Type} {f : Scheduler → α → Scheduler}
    (hmoves : ∀ (s : Scheduler) (x : α), Moves s (f s x))
    (hf : ∀ {s : Scheduler} (x : α), s.Wf → s.KeepsPrompts (f s x)) (hw : s.Wf) (xs : List α) :
    s.KeepsPrompts (xs.foldl f s) :=
  foldl_of_moves KeepsPrompts.refl KeepsPrompts.trans hmoves hf hw xs

theorem truncateActive_keepsPrompts (h : s.active id = some seq) (keepTokens : Nat) :
    s.KeepsPrompts (s.truncateActive id keepTokens) := by
  obtain ⟨hactive, -, hpending, -⟩ := truncateActive_active h keepTokens
  refine .of_active (hpending ▸ List.Subset.refl _) fun {a seq'} hseq' => ?_
  rw [hactive] at hseq'
  split at hseq'
  next heq =>
    subst heq
    obtain rfl := Option.some.inj hseq'
    exact ⟨seq, h, rfl⟩
  next => exact ⟨seq', hseq', rfl⟩

theorem completeByStopSequence_keepsPrompts (hw : s.Wf) (requestId : RequestId)
    (keepTokens : Nat) : s.KeepsPrompts (s.completeByStopSequence requestId keepTokens).2 := by
  rw [completeByStopSequence]
  split
  next seq hseq =>
    have hactive := hw.active_of_mem (List.mem_of_find?_eq_some hseq)
    have hw' := (Moves.evolves hw (truncateActive_moves s seq.seqId keepTokens)).wf
    exact (truncateActive_keepsPrompts hactive keepTokens).trans
      (completeSequence_keepsPrompts hw' _)
  next => exact .refl s

/-! ## The update -/

theorem updateRow_keepsPrompts (outputs : ExecutionOutput) (eosTokenId : TokenId)
    {st : UpdateState} (hw : st.scheduler.Wf) (index : Nat) (id : SeqId) :
    st.scheduler.KeepsPrompts (updateRow outputs eosTokenId st index id).scheduler := by
  cases htoken : outputs.nextTokens[index]? with
  | none =>
      rw [updateRow, htoken]
      exact .refl _
  | some token =>
      cases hactive : st.scheduler.active id with
      | none =>
          obtain ⟨hprefill, hdecode⟩ := Option.or_eq_none_iff.1 hactive
          simp only [updateRow, htoken, transitionPrefillToDecode, hprefill, hdecode]
          exact .refl _
      | some seq =>
          have happlied := updateRow_applied eosTokenId hw htoken hactive
          refine .of_active (happlied.pending ▸ List.Subset.refl _) fun {a seq'} hseq' => ?_
          rw [active, happlied.prefill, happlied.decode] at hseq'
          rcases eq_or_ne id a with rfl | hne
          · refine ⟨seq, hactive, ?_⟩
            simp only [List.lookup_cons_self, hactive, Option.isSome_some, ↓reduceIte,
              Option.none_or, Option.map_some, Option.some.injEq] at hseq'
            rw [← hseq']
            rfl
          · rw [IdMap.lookup_cons_ne hne] at hseq'
            exact ⟨seq', hseq', rfl⟩

theorem updateRows_keepsPrompts (outputs : ExecutionOutput) (eosTokenId : TokenId)
    {st : UpdateState} (hw : st.scheduler.Wf) (index : Nat) (ids : List SeqId) :
    st.scheduler.KeepsPrompts (updateRows outputs eosTokenId index ids st).scheduler := by
  induction ids generalizing index st with
  | nil => exact .refl _
  | cons id rest ih =>
      have hw' := (Moves.evolves hw (updateRow_moves outputs eosTokenId st index id)).wf
      exact (updateRow_keepsPrompts outputs eosTokenId hw index id).trans (ih hw' (index + 1))

theorem updateSequences_keepsPrompts (hw : s.Wf) (outputs : ExecutionOutput)
    (eosTokenId : TokenId) : s.KeepsPrompts (s.updateSequences outputs eosTokenId) := by
  rw [updateSequences]
  have hw₀ : ({ scheduler := s } : UpdateState).scheduler.Wf := hw
  have hrows := updateRows_keepsPrompts outputs eosTokenId hw₀ 0 outputs.seqIds
  have hmoves := updateRows_moves outputs eosTokenId outputs.seqIds 0 { scheduler := s }
  generalize updateRows outputs eosTokenId 0 outputs.seqIds { scheduler := s } = st at hrows hmoves
  have hw' := (Moves.evolves hw hmoves).wf
  have hfail : st.scheduler.KeepsPrompts (st.scheduler.failAll st.toFail) :=
    foldl_keepsPrompts (fun s (f : SeqId × String) => failSequence_moves s f.1 f.2)
      (fun f hw => failSequence_keepsPrompts hw f.1 f.2) hw' st.toFail
  have hw'' := (Moves.evolves hw' (failAll_moves st.scheduler st.toFail)).wf
  exact (hrows.trans hfail).trans (foldl_keepsPrompts completeSequence_moves
    (fun id hw => completeSequence_keepsPrompts hw id) hw'' _)

/-! ## The pass -/

theorem schedule_keepsPrompts (hw : s.Wf) : s.KeepsPrompts s.schedule.2 := by
  have hby := pass_spec hw
  have hw' := wf_passStart hw
  refine ⟨hby.pending, fun {id seq'} hseq' => ?_⟩
  rcases Option.or_eq_some_iff.1 hseq' with hprefill | ⟨-, hdecode⟩
  · rcases hby.prefill hprefill with hold | ⟨-, p, hp, -, blocks, -, rfl⟩
    · exact .inr ⟨id, seq', Wf.active_of_prefill hold, rfl⟩
    · exact .inl ⟨p, hp, rfl⟩
  · obtain ⟨seq, hseq, hgrown, hsame⟩ := hby.decode hdecode
    refine .inr ⟨id, seq, hw'.active_of_decode hseq, ?_⟩
    by_cases hout : id ∈ s.pass.output.seqIds
    · rcases hgrown hout with ⟨-, rfl⟩ | ⟨-, ref, rfl⟩ <;> rfl
    · rw [hsame hout]

end Scheduler

/-- The prompt that an operation brings in. -/
def SchedulerOp.prompt : SchedulerOp → Option (List TokenId)
  | .addRequest _ inputTokens _ => some inputTokens
  | _ => none

namespace History

open Scheduler

variable {h : History} {tokens : List TokenId}

theorem prompts_apply (hi : h.Inv) (op : SchedulerOp)
    (ht : (h.apply op).scheduler.Prompts tokens) :
    h.scheduler.Prompts tokens ∨ op.prompt = some tokens := by
  cases op with
  | addRequest id inputTokens params =>
      rw [apply, addRequest] at ht
      rcases addRequest_cases h.scheduler (Request.new id inputTokens params) with
        ⟨-, heq⟩ | ⟨e, heq⟩
      · rw [heq] at ht
        rcases ht with ⟨p, hp, rfl⟩ | hactive
        · rcases List.mem_append.1 hp with hp | hp
          · exact .inl (.inl ⟨p, hp, rfl⟩)
          · obtain rfl := List.mem_singleton.1 hp
            exact .inr rfl
        · exact .inl (.inr hactive)
      · rw [heq] at ht
        exact .inl ht
  | schedule => exact .inl ((schedule_keepsPrompts hi.wf).prompts ht)
  | updateSequences outputs eosTokenId =>
      exact .inl ((updateSequences_keepsPrompts hi.wf outputs eosTokenId).prompts ht)
  | cancelByRequestId requestId =>
      exact .inl ((failByRequestId_keepsPrompts hi.wf requestId _).prompts ht)
  | failByRequestId requestId reason =>
      exact .inl ((failByRequestId_keepsPrompts hi.wf requestId reason).prompts ht)
  | failSequences seqIds reason =>
      exact .inl ((foldl_keepsPrompts (fun s id => failSequence_moves s id reason)
        (fun id hw => failSequence_keepsPrompts hw id reason) hi.wf seqIds).prompts ht)
  | completeByStopSequence requestId keepTokens =>
      exact .inl ((completeByStopSequence_keepsPrompts hi.wf requestId keepTokens).prompts ht)
  | failPendingRequests reason =>
      have hkeeps : h.scheduler.KeepsPrompts (h.scheduler.failPendingRequests reason).2 :=
        .of_subset (List.nil_subset _) fun _ => rfl
      exact .inl (hkeeps.prompts ht)
  | takeCompletedWithSeqIds => exact .inl ht
  | getCompleted => exact .inl ht

/-- The prompts in a run came in by its own operations. -/
theorem prompts_run (hi : h.Inv) (ops : List SchedulerOp)
    (ht : (h.run ops).scheduler.Prompts tokens) :
    h.scheduler.Prompts tokens ∨ ∃ op ∈ ops, op.prompt = some tokens := by
  induction ops generalizing h with
  | nil => exact .inl ht
  | cons op rest ih =>
      rcases ih (hi.apply op) ht with hnext | ⟨op', hop', heq⟩
      · exact (prompts_apply hi op hnext).imp_right fun heq => ⟨op, List.mem_cons_self, heq⟩
      · exact .inr ⟨op', List.mem_cons_of_mem _ hop', heq⟩

end History

end PagedServing
