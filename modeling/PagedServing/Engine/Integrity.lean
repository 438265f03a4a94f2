import PagedServing.Engine.BackendLifecycle

/-! # Integrity of the stored rows

The scheduler frees the blocks of a sequence before the executor is told that it is
over. As long as none of them is in the very next batch, every row a sequence reads
is one it has written.
-/

namespace PagedServing

open Scheduler CpuReferenceExecutor

theorem Visit.not_owned_of_none {V : Type} {v : Visit V} {blockSize : Nat} (hpos : 0 < v.position)
    (h : ∀ blockIdx ∈ v.blockTable, v.kvCache (0, blockIdx) = none) : ¬ v.Owned blockSize := by
  intro howned
  obtain ⟨blockIdx, block, row, htable, hblock, -⟩ := howned 0 (by decide) 0 hpos
  rw [h blockIdx (List.mem_of_getElem? htable)] at hblock
  cases hblock

namespace Session

variable {V τ δ : Type} {s : Session (CpuReferenceExecutor V) τ δ}

/-- The blocks the executor has recorded for a sequence. -/
def recorded (s : Session (CpuReferenceExecutor V) τ δ) (id : SeqId) : List BlockIdx :=
  (s.engine.executionPipeline.gpuExecutor.seqBlockTables[id]?).getD []

/-- The next batch has no block of a sequence that is over but not reported. -/
def Clear (s : Session (CpuReferenceExecutor V) τ δ) : Prop :=
  ∀ seq ∈ s.engine.output.prefillSequences ++ s.engine.output.decodeSequences,
    ∀ r ∈ s.engine.scheduled.scheduler.completedRequests,
      ∀ blockIdx ∈ s.recorded r.1, blockIdx ∉ seq.getBlockTable

instance : Decidable s.Clear :=
  inferInstanceAs (Decidable (∀ seq ∈ s.engine.output.prefillSequences ++
    s.engine.output.decodeSequences, ∀ r ∈ s.engine.scheduled.scheduler.completedRequests,
      ∀ blockIdx ∈ s.recorded r.1, blockIdx ∉ seq.getBlockTable))

/-- The tables the executor recorded are the last ones its caller has sent. -/
def Recorded (s : Session (CpuReferenceExecutor V) τ δ) : Prop :=
  ∀ id ∉ finishedIds s.calls, s.caller.table id = s.recorded id

theorem Recorded.keep {s' : Session (CpuReferenceExecutor V) τ δ} (h : s.Recorded)
    (hsame : s'.engine.executionPipeline = s.engine.executionPipeline) : s'.Recorded := by
  rw [Recorded, caller, calls, hsame]
  intro id hid
  rw [recorded, hsame]
  exact h id hid

theorem backs_of_conforms {config : EngineConfig} {vocabSize : Nat} {model : CpuModel V}
    (hbs : 0 < config.blockSize.toNat)
    (hreplays : s.Replays (CpuReferenceExecutor.new config vocabSize model))
    (hconforms : Caller.Conforms config.blockSize.toNat {} s.calls) :
    s.engine.executionPipeline.gpuExecutor.Backs s.caller ∧
      s.engine.executionPipeline.gpuExecutor.blockSize = config.blockSize.toNat := by
  have hlog : runCalls (s.calls.map BackendCall.call)
      (CpuReferenceExecutor.new config vocabSize model) =
        (s.calls, s.engine.executionPipeline.gpuExecutor) := hreplays
  have halike := runCalls_alike (.new config vocabSize model)
    (r := ReferenceExecutor.new config vocabSize model) ⟨rfl, rfl, rfl, rfl, rfl⟩ hbs
    (s.calls.map BackendCall.call) (by rw [hlog]; exact hconforms)
  rw [hlog] at halike
  exact halike.2

/-! ## Recorded tables along a run -/

variable [IncrementalDecoder δ] [TokenizerTrait τ δ] {x : Setting τ}
  {answer : List TokenId → TokenId → Prop} {R : CpuReferenceExecutor V → Fed → Prop}

/-- A batch that fails may leave tables unrecorded, of sequences that are over. -/
theorem Recorded.advance (h : s.Recorded) (hi : s.Inv answer R x) (hn : s.Noticed) :
    ∀ id ∉ finishedIds s.advance.calls,
      id ∉ s.advance.engine.scheduler.completedRequests.map (·.1) →
        s.advance.caller.table id = s.advance.recorded id := by
  intro id hid hopen
  rw [(hn.advance hi).notices] at hid
  have hold : s.caller.table id = s.recorded id := h id (by rwa [hn.notices])
  rcases advance_once rfl hi with ⟨hsame, -⟩ | ⟨b, result, honce, hreply⟩
  · rw [caller, calls, recorded, hsame]
    exact hold
  · have hexecutor : s.advance.engine.executionPipeline.gpuExecutor =
        (s.engine.executionPipeline.gpuExecutor.execute b).2 := by
      rw [honce.once]
      rfl
    have hcaller := caller_advance honce
    have hnodup : ∀ entry ∈ b.entries, entry.blockTable.Nodup :=
      (List.nodup_flatMap.1 (InferenceEngine.separate_of_builds hi.sound honce.sent.builds)).1
    rw [hcaller, Caller.after_table, recorded, hexecutor]
    rcases hreply with ⟨reply, hreply⟩ | hfailed
    · rw [execute_recorded hnodup hreply, hold]
      rfl
    · have hunlisted : id ∉ b.entries.map (·.seqId) := by
        rw [honce.sent.builds.entries_seqIds]
        intro hlisted
        obtain ⟨req, hreq⟩ := hfailed id hlisted
        exact hopen (List.mem_map_of_mem hreq)
      rw [execute_recorded_ne hnodup hunlisted, filter_key_nil hunlisted]
      exact hold

theorem recorded_collect (hs : s.engine.scheduler.Sound) {id : SeqId}
    (hid : id ∉ s.engine.scheduler.completedRequests.map (·.1)) :
    s.collect.recorded id = s.recorded id := by
  rw [recorded, Session.collect,
    (InferenceEngine.collectCompletedRequests_collected hs).executionPipeline]
  split
  next => rfl
  next => exact congrArg (Option.getD · []) (sequencesFinished_recorded_ne hid)

theorem table_collect (hs : s.engine.scheduler.Sound) (id : SeqId) :
    s.collect.caller.table id = s.caller.table id := by
  rw [caller, calls_collect hs]
  split
  next => rw [List.append_nil, caller]
  next =>
    rw [List.foldl_append]
    rfl

theorem Recorded.step (h : s.Recorded) (hA : Answering _ answer R) (hi : s.Inv answer R x)
    (hsettled : Settled s.calls) (hn : s.Noticed) : s.step.Recorded := by
  have hmid := hi.stage (advance_stage hA hi hsettled)
  have hadvance := hn.advance hi
  rw [step_eq hi.sound]
  intro id hid
  rw [(hadvance.collect hmid.sound).notices, reports_collect hmid.sound, List.mem_append,
    not_or] at hid
  rw [table_collect hmid.sound, recorded_collect hmid.sound hid.2]
  exact h.advance hi hn id (by rw [hadvance.notices]; exact hid.1) hid.2

theorem Recorded.apply (h : s.Recorded) (hA : Answering _ answer R) (hi : s.Inv answer R x)
    (hsettled : Settled s.calls) (hn : s.Noticed) (op : EngineOp) : (s.apply op).Recorded := by
  cases op with
  | submitRequest text params => exact h.keep (pipeline_submit s text params)
  | cancelRequest requestId => exact h.keep rfl
  | stepEvents => exact h.step hA hi hsettled hn
  | failPendingRequests reason => exact h.keep rfl

/-! ## The next batch -/

/-- An unfinished sequence that was in a batch is active, with an extension of its last
table, or it is over. -/
theorem Inv.sent_active (hi : s.Inv answer R x) {r : Request} (hr : r ∈ s.admitted)
    (hsent : entriesOf s.calls r.id ≠ []) (hopen : r.id ∉ s.reports.map (·.requestId))
    (hended : r.id ∉ s.engine.scheduled.scheduler.completedRequests.map (·.1)) :
    ∃ seq, s.engine.scheduled.scheduler.active r.id = some seq ∧
      Caller.lastTable [] (entriesOf s.calls r.id) <+: seq.getBlockTable := by
  obtain ⟨w, hw, htraced, ht⟩ := hi.traced hr
  have hs := hi.sound
  have hgone : ∀ {req}, ¬ s.engine.scheduled.scheduler.Holds r.id (.completed req) := fun hreq =>
    hended (List.mem_map_of_mem hreq)
  rw [← ht.entries] at hsent ⊢
  rcases InferenceEngine.place_of_schedule hs ht.place with
    ⟨-, hkept | ⟨_, _, _, -, hover⟩⟩ | ⟨seq, entry, d, hsched, -, -, hactive, -⟩
  · cases hplace : w.place with
    | waiting d => exact absurd (htraced.waiting d hplace).1 hsent
    | running seq d =>
        rw [hplace] at hkept
        exact ⟨seq, (InferenceEngine.scheduled_sound hs).wf.active_of_holds hkept.1,
          Caller.lastTable_prefix (htraced.running seq d hplace).2.1⟩
    | ended req d =>
        rw [hplace] at hkept
        exact absurd hkept.1 hgone
    | reported report =>
        have hplaced := ht.place
        rw [hplace] at hplaced
        have hmem := hi.places.mem_iff.2 (List.mem_map_of_mem (f := (·.id)) hr)
        exact absurd ((List.mem_append.1 hmem).resolve_left hplaced.1) hopen
  · exact absurd hover.1 hgone
  · rw [hi.config] at hsched
    have hcont := Course.continues_of_scheduled hi.valid (hi.admits r hr).1 hw htraced hsched
    refine ⟨seq, hactive, ?_⟩
    rw [← hcont.blockTable]
    exact Caller.lastTable_prefix hcont.extends_prev

/-- Every entry of a clear batch is in order, whatever else is still stored. -/
theorem admits_of_clear (hclear : s.Clear) (h : s.Recorded)
    (ht : s.Tracked x.config.blockSize.toNat) (hi : s.Inv answer R x) (hn : s.Noticed)
    {b : ExecutionBatch} (hb : s.engine.output.Builds b) (hshape : validateBatchShape b = .ok ()) :
    ∀ entry ∈ b.entries, Caller.Admits x.config.blockSize.toNat s.caller entry := by
  intro entry hentry
  refine ⟨ht.continues hi hn hb hshape entry hentry, fun id hid hne => ?_⟩
  rw [ht.finished] at hid
  by_cases hsent : entriesOf s.calls id = []
  · rw [ht.table, hsent]
    exact List.disjoint_nil_left _
  obtain ⟨r, hr, rfl⟩ : ∃ r ∈ s.admitted, r.id = id := by
    by_contra hno
    exact hsent (hi.strangers id fun hmem => hno (List.mem_map.1 hmem)).2.1
  rw [hb.entries] at hentry
  obtain ⟨seq, hseq, hlists⟩ := SchedulerOutput.exists_lists hentry
  have htable : entry.blockTable = seq.getBlockTable := by
    rcases hlists with ⟨-, rfl⟩ | ⟨-, rfl⟩ <;> rfl
  rw [htable]
  by_cases hended : r.id ∈ s.engine.scheduled.scheduler.completedRequests.map (·.1)
  · obtain ⟨q, hq, heq⟩ := List.mem_map.1 hended
    rw [h r.id hid, ← heq]
    exact fun blockIdx hmem hmem' => hclear seq hseq q hq blockIdx hmem hmem'
  · rw [hn.notices] at hid
    obtain ⟨seq', hactive, hinitial⟩ := hi.sent_active hr hsent hid hended
    rw [ht.table]
    have hdisjoint := (InferenceEngine.scheduled_sound hi.sound).wf.blockTable_disjoint hactive
      (InferenceEngine.output_eq_active hi.sound seq hseq) (hlists.seqId_eq ▸ hne)
    exact fun blockIdx hmem => hdisjoint (hinitial.subset hmem)

/-! ## Clear runs -/

/-- What a run with clear steps keeps. -/
structure Whole (x : Setting τ) (s : Session (CpuReferenceExecutor V) τ δ) : Prop where
  inv : s.Inv (fun _ _ => True) (fun _ _ => True) x
  settled : Settled s.calls
  noticed : s.Noticed
  tracked : s.Tracked x.config.blockSize.toNat
  recorded : s.Recorded
  conforms : Caller.Conforms x.config.blockSize.toNat {} s.calls

theorem Whole.conforms_advance (h : s.Whole x) (hclear : s.Clear) :
    Caller.Conforms x.config.blockSize.toNat {} s.advance.calls := by
  rcases advance_once rfl h.inv with ⟨hsame, -⟩ | ⟨b, result, honce, -⟩
  · rw [calls, hsame]
    exact h.conforms
  · have hcalls : s.advance.calls = _ := honce.calls
    have hbuilds := honce.sent.builds
    rw [hcalls, Caller.Conforms, Caller.ConformsTo.append]
    refine ⟨h.conforms, honce.sent.shape, ?_, trivial⟩
    refine Caller.Each.of_pairwise Caller.Admits.feed ?_
      (admits_of_clear hclear h.recorded h.tracked h.inv h.noticed hbuilds honce.sent.shape)
    have hids : (b.entries.map (·.seqId)).Nodup :=
      hbuilds.entries_seqIds ▸ InferenceEngine.output_nodup h.inv.sound
    have htables := (List.nodup_flatMap.1
      (InferenceEngine.separate_of_builds h.inv.sound hbuilds)).2
    exact (List.pairwise_map.1 hids).and htables

theorem Whole.apply (h : s.Whole x) (op : EngineOp) (hclear : op = .stepEvents → s.Clear) :
    (s.apply op).Whole x := by
  have hA := Answering.any (CpuReferenceExecutor V)
  obtain ⟨hinv, hsettled⟩ := inv_apply hA h.inv h.settled op
  refine ⟨hinv, hsettled, h.noticed.apply h.inv hA h.settled op,
    h.tracked.apply rfl hA h.inv h.settled h.noticed op,
    h.recorded.apply hA h.inv h.settled h.noticed op, ?_⟩
  cases op with
  | submitRequest text params =>
      rw [Session.apply, calls_submit]
      exact h.conforms
  | cancelRequest requestId => exact h.conforms
  | stepEvents =>
      have hmid := h.inv.stage (advance_stage hA h.inv h.settled)
      rw [Session.apply, step_eq h.inv.sound, calls_collect hmid.sound, Caller.Conforms,
        Caller.ConformsTo.append]
      refine ⟨h.conforms_advance (hclear rfl), ?_⟩
      split <;> trivial
  | failPendingRequests reason => exact h.conforms

/-- Before each step of the run the next batch is clear. -/
def StepsClear : Session (CpuReferenceExecutor V) τ δ → List EngineOp → Prop
  | _, [] => True
  | s, op :: rest => (op = .stepEvents → s.Clear) ∧ StepsClear (s.apply op) rest

instance decidableStepsClear : (s : Session (CpuReferenceExecutor V) τ δ) →
    (ops : List EngineOp) → Decidable (s.StepsClear ops)
  | _, [] => isTrue trivial
  | s, op :: rest =>
      have := decidableStepsClear (s.apply op) rest
      inferInstanceAs (Decidable ((op = .stepEvents → s.Clear) ∧ StepsClear (s.apply op) rest))

theorem Whole.run (h : s.Whole x) (ops : List EngineOp) (hclear : s.StepsClear ops) :
    (s.run ops).Whole x := by
  induction ops generalizing s with
  | nil => exact h
  | cons op rest ih => exact ih (h.apply op hclear.1) hclear.2

/-! ## Integrity -/

/-- The rows read are one's own, and a report drops no block of a sequence in the batch
that goes on. -/
structure Intact (config : EngineConfig) (s : Session (CpuReferenceExecutor V) τ δ) : Prop where
  owned : ∀ v ∈ s.engine.executionPipeline.gpuExecutor.visits, v.Owned config.blockSize.toNat
  spared : s.Clear →
    ∀ seq ∈ s.engine.output.prefillSequences ++ s.engine.output.decodeSequences,
      seq.seqId ∉ s.advance.engine.scheduler.completedRequests.map (·.1) →
        ∀ r ∈ s.advance.engine.scheduler.completedRequests,
          ∀ blockIdx ∈ s.advance.recorded r.1, blockIdx ∉ seq.getBlockTable

theorem Whole.spared (h : s.Whole x)
    (hbacks : s.advance.engine.executionPipeline.gpuExecutor.Backs s.advance.caller)
    {seq : Sequence}
    (hseq : seq ∈ s.engine.output.prefillSequences ++ s.engine.output.decodeSequences)
    (hopen : seq.seqId ∉ s.advance.engine.scheduler.completedRequests.map (·.1))
    {r : SeqId × Request} (hr : r ∈ s.advance.engine.scheduler.completedRequests) :
    ∀ blockIdx ∈ s.advance.recorded r.1, blockIdx ∉ seq.getBlockTable := by
  have hi := h.inv
  obtain ⟨q, -, w, entry, d, -, -, -, -, hlists⟩ := hi.listed_continues hseq
  have hover : ¬ s.BatchOver := fun hover => by
    obtain ⟨req, hreq⟩ := hover seq.seqId hlists.mem_seqIds
    exact hopen (List.mem_map_of_mem hreq)
  rcases advance_once rfl hi with ⟨-, hall⟩ | ⟨b, result, honce, hreply⟩
  · exact absurd hall hover
  obtain ⟨reply, hreply⟩ := hreply.resolve_right hover
  have hcaller := caller_advance honce
  have htable : s.advance.caller.table seq.seqId = seq.getBlockTable := by
    rw [hcaller, Caller.after_table, honce.sent.builds.entries,
      hlists.filter_entries (InferenceEngine.output_nodup hi.sound)]
    rcases hlists with ⟨-, rfl⟩ | ⟨-, rfl⟩ <;> rfl
  have hunfinished : seq.seqId ∉ s.advance.caller.finished := by
    rw [hcaller, Caller.after_finished, h.tracked.finished, h.noticed.notices]
    exact fun hmem => hi.not_mem_ids hmem
      (InferenceEngine.mem_ids_of_listed hi.sound hlists.mem_seqIds)
  have hne : r.1 ≠ seq.seqId := fun heq => hopen (heq ▸ List.mem_map_of_mem hr)
  rw [Session.recorded]
  cases hrec : s.advance.engine.executionPipeline.gpuExecutor.seqBlockTables[r.1]? with
  | none => exact fun blockIdx hmem => absurd hmem List.not_mem_nil
  | some blockTable =>
      obtain ⟨hlive, hinitial⟩ := hbacks.recorded r.1 blockTable hrec
      have hdisjoint := hbacks.disjoint r.1 hlive seq.seqId hunfinished hne
      rw [htable] at hdisjoint
      exact fun blockIdx hmem => hdisjoint (hinitial.subset hmem)

theorem Whole.new {config : EngineConfig} (hvalid : config.validate = .ok ()) (tokenizer : τ)
    (vocabSize : Nat) (model : CpuModel V) :
    (Session.new config tokenizer (.new config vocabSize model) :
      Session (CpuReferenceExecutor V) τ δ).Whole (settingOf config tokenizer) where
  inv := inv_new hvalid tokenizer (fun _ => []) trivial
  settled := by
    rintro _ ⟨⟩
  noticed := noticed_new config tokenizer _
  tracked := ⟨rfl, fun _ => rfl, fun r hr => absurd hr List.not_mem_nil, fun _ _ => rfl, trivial⟩
  recorded := fun _ _ => rfl
  conforms := trivial

/-- In every run whose steps are clear the stored rows are intact. -/
theorem integrity_of_clear {config : EngineConfig} (hvalid : config.validate = .ok ())
    (tokenizer : τ) (vocabSize : Nat) (model : CpuModel V) (ops : List EngineOp)
    (hclear : (Session.new config tokenizer (.new config vocabSize model) :
      Session (CpuReferenceExecutor V) τ δ).StepsClear ops) :
    ((Session.new config tokenizer (.new config vocabSize model) :
      Session (CpuReferenceExecutor V) τ δ).run ops).Intact config := by
  have hwhole := (Whole.new (δ := δ) hvalid tokenizer vocabSize model).run ops hclear
  have hreach : ((Session.new config tokenizer (.new config vocabSize model) :
      Session (CpuReferenceExecutor V) τ δ).run ops).Reachable config tokenizer
        (CpuReferenceExecutor.new config vocabSize model) := ⟨hvalid, ops, rfl⟩
  have hbs := hwhole.inv.valid.blockSize_pos
  refine ⟨?_, fun hnext seq hseq hopen r hr => ?_⟩
  · obtain ⟨hbacks, hsize⟩ := backs_of_conforms hbs hreach.replays hwhole.conforms
    exact fun v hv => hsize ▸ hbacks.owned v hv
  · have hbacks := backs_of_conforms hbs (hreach.replays.advance hwhole.inv)
      (hwhole.conforms_advance hnext)
    exact hwhole.spared hbacks.1 hseq hopen hr

theorem integrity_of_clear_small : cpuSession.Intact smallConfig := by
  refine integrity_of_clear (by decide +kernel) SimpleTokenizer.new 100
    CpuReferenceExecutor.countingModel smallOps ?_
  decide +kernel

/-- One block, that the second request takes over before the first is reported. -/
def reusedConfig : EngineConfig := { maxNumBlocks := 1, memoryThreshold := .finite 1 }

def reusedSession : Session (CpuReferenceExecutor Nat) SimpleTokenizer SimpleDecoder :=
  (new reusedConfig SimpleTokenizer.new
    (.new reusedConfig 100 CpuReferenceExecutor.countingModel)).run
      [.submitRequest "a" {}, .submitRequest "b" { maxTokens := 4 }, .stepEvents,
        .cancelRequest 1, .stepEvents, .stepEvents]

/-- The third step finds no row of the second request: its block was dropped with the report
of the first. -/
theorem not_intact_reused :
    reusedSession.Reachable reusedConfig SimpleTokenizer.new
        (.new reusedConfig 100 CpuReferenceExecutor.countingModel) ∧
      ¬ reusedSession.Intact reusedConfig := by
  refine ⟨⟨by decide +kernel, _, rfl⟩, fun h => ?_⟩
  have hlost : ∃ v ∈ reusedSession.engine.executionPipeline.gpuExecutor.visits,
      0 < v.position ∧ ∀ blockIdx ∈ v.blockTable, v.kvCache (0, blockIdx) = none := by
    decide +kernel
  obtain ⟨v, hv, hpos, hnone⟩ := hlost
  exact Visit.not_owned_of_none hpos hnone (h.owned v hv)

end Session

end PagedServing
