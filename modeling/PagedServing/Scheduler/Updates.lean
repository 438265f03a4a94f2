import PagedServing.Scheduler.Operations

/-! # Operations, sequence by sequence

Retiring a list of sequences and the update after a well-formed batch, stated by
what each map holds afterwards for each id.
-/

namespace PagedServing

open Relation

namespace Scheduler

variable {s s' : Scheduler} {id : SeqId} {seq : Sequence}

/-! ## Active sequences that become terminal -/

/-- The sequences named in `ends` have become terminal as given, and nothing else changed. -/
structure RemovedAll (s : Scheduler) (ends : List (SeqId × Request)) (s' : Scheduler) : Prop where
  moves : Moves s s'
  prefill : ∀ a : Nat,
    s'.prefillSequences[a]? = if a ∈ ends.map Prod.fst then none else s.prefillSequences[a]?
  decode : ∀ a : Nat,
    s'.decodeSequences[a]? = if a ∈ ends.map Prod.fst then none else s.decodeSequences[a]?
  pending : s'.pendingQueue = s.pendingQueue
  completed : s'.completedRequests = s.completedRequests ++ ends

namespace RemovedAll

variable {ends ends' : List (SeqId × Request)} {s'' : Scheduler}

theorem refl (s : Scheduler) : s.RemovedAll [] s := ⟨.refl, by simp, by simp, rfl, by simp⟩

private theorem none_of_mem_append {β : Type} {a : Nat} {l l' : List (Nat × Request)}
    {x : Option β} :
    (if a ∈ l'.map Prod.fst then none else if a ∈ l.map Prod.fst then none else x) =
      if a ∈ (l ++ l').map Prod.fst then none else x := by
  simp only [List.map_append, List.mem_append]
  split_ifs <;> tauto

theorem trans (h : s.RemovedAll ends s') (h' : s'.RemovedAll ends' s'') :
    s.RemovedAll (ends ++ ends') s'' where
  moves := h.moves.trans h'.moves
  prefill a := by rw [h'.prefill, h.prefill, none_of_mem_append]
  decode a := by rw [h'.decode, h.decode, none_of_mem_append]
  pending := h'.pending.trans h.pending
  completed := by rw [h'.completed, h.completed, List.append_assoc]

theorem active (h : s.RemovedAll ends s') (a : Nat) :
    s'.active a = if a ∈ ends.map Prod.fst then none else s.active a := by
  rw [Scheduler.active, h.prefill, h.decode]
  split <;> rfl

end RemovedAll

/-- A retired sequence. -/
theorem removedAll_of_retire (hw : s.Wf) {state : RequestState} (ht : state.IsTerminal)
    (hr : s.retire id state = some s') (hseq : s.active id = some seq) :
    s.RemovedAll [(id, { seq.request with state := state })] s' := by
  obtain ⟨seq', h⟩ := retire_spec hw hr
  obtain rfl : seq = seq' := Option.some.inj (hseq.symm.trans h.was)
  refine ⟨.single (.retire ht hr), ?_, ?_, h.pending, h.completed⟩
  · simpa [eq_comm] using h.prefill
  · simpa [eq_comm] using h.decode

theorem exists_retire_of_active (h : s.active id = some seq) (state : RequestState) :
    ∃ s', s.retire id state = some s' := by
  cases hr : s.retire id state with
  | none => simp [retire_eq_none hr] at h
  | some s' => exact ⟨s', rfl⟩

/-- A loop whose turn for `x` ends at most the sequence `key x`, with a result that only
depends on that sequence; `Q` is what a turn asks of its sequence. -/
theorem foldl_removedAll {β : Type} {I : Scheduler → Prop} {Q : β → Option Sequence → Prop}
    (hI : ∀ {s s' : Scheduler}, I s → Moves s s' → I s') {f : Scheduler → β → Scheduler}
    {key : β → SeqId} {result : β → Sequence → Option Request}
    (hf : ∀ {s : Scheduler} {x : β}, I s → Q x (s.active (key x)) →
      s.RemovedAll (((s.active (key x)).bind (result x)).map (Prod.mk (key x))).toList (f s x))
    (hs : I s) {xs : List β} (hnodup : (xs.map key).Nodup)
    (hq : ∀ x ∈ xs, Q x (s.active (key x))) :
    s.RemovedAll
      (xs.filterMap fun x => ((s.active (key x)).bind (result x)).map (Prod.mk (key x)))
      (xs.foldl f s) := by
  induction xs generalizing s with
  | nil => exact .refl s
  | cons x xs ih =>
    obtain ⟨hx, hrest⟩ := List.nodup_cons.1 hnodup
    have hone := hf hs (hq x (by simp))
    have hkeep : ∀ y ∈ xs, (f s x).active (key y) = s.active (key y) := by
      intro y hy
      have hne : key y ≠ key x := by
        intro heq
        exact hx (heq ▸ List.mem_map_of_mem hy)
      rw [hone.active, if_neg]
      intro hmem
      obtain ⟨p, hp, hkey⟩ := List.mem_map.1 hmem
      obtain ⟨r, -, rfl⟩ := Option.map_eq_some_iff.1 (Option.mem_toList.1 hp)
      exact hne hkey.symm
    have hall := ih (hI hs hone.moves) hrest fun y hy => by
      rw [hkeep y hy]
      exact hq y (by simp [hy])
    have hfilter : (xs.filterMap fun y =>
          (((f s x).active (key y)).bind (result y)).map (Prod.mk (key y))) =
        xs.filterMap fun y => ((s.active (key y)).bind (result y)).map (Prod.mk (key y)) :=
      List.filterMap_congr fun y hy => by rw [hkeep y hy]
    have htotal := hone.trans hall
    rw [hfilter] at htotal
    rw [List.foldl_cons, List.filterMap_cons]
    cases hres : ((s.active (key x)).bind (result x)).map (Prod.mk (key x)) with
    | none => simpa [hres] using htotal
    | some r => simpa [hres] using htotal

/-- A loop that retires each of its sequences. -/
theorem foldl_retire {f : Scheduler → SeqId → Scheduler} {state : RequestState}
    (ht : state.IsTerminal)
    (hf : ∀ {s s' : Scheduler} {id : SeqId}, s.retire id state = some s' → f s id = s')
    (hw : s.Wf) {ids : List SeqId} (hnodup : ids.Nodup)
    (hactive : ∀ id ∈ ids, ∃ seq, s.active id = some seq) :
    s.RemovedAll (ids.filterMap fun id =>
      (s.active id).map fun seq => (id, { seq.request with state := state })) (ids.foldl f s) := by
  have hturn {s : Scheduler} {id : SeqId} (hw : s.Wf) (ha : ∃ seq, s.active id = some seq) :
      s.RemovedAll (((s.active id).bind fun seq =>
        some { seq.request with state := state }).map (Prod.mk id)).toList (f s id) := by
    obtain ⟨seq, hseq⟩ := ha
    obtain ⟨s', hr⟩ := exists_retire_of_active hseq state
    rw [hf hr, hseq]
    exact removedAll_of_retire hw ht hr hseq
  have hall := @foldl_removedAll s SeqId Wf (fun _ o => ∃ seq, o = some seq)
    (fun hw hm => (Moves.evolves hw hm).wf) f (fun id => id)
    (fun _ seq => some { seq.request with state := state }) hturn hw ids (by simpa using hnodup)
    hactive
  convert hall using 1
  refine List.filterMap_congr fun a _ => ?_
  cases s.active a <;> rfl

theorem failSequences_removedAll (hw : s.Wf) {ids : List SeqId} (hnodup : ids.Nodup)
    (hactive : ∀ id ∈ ids, ∃ seq, s.active id = some seq) (reason : String) :
    s.RemovedAll (ids.filterMap fun id =>
      (s.active id).map fun seq => (id, seq.request.fail reason)) (s.failSequences ids reason) :=
  foldl_retire (by exact trivial) failSequence_of_retire hw hnodup hactive

theorem completeAll_removedAll (hw : s.Wf) {ids : List SeqId} (hnodup : ids.Nodup)
    (hactive : ∀ id ∈ ids, ∃ seq, s.active id = some seq) :
    s.RemovedAll (ids.filterMap fun id =>
      (s.active id).map fun seq => (id, { seq.request with state := .completed }))
      (s.completeAll ids) :=
  foldl_retire (by exact trivial) (fun h => by simp [completeSequence, h]) hw hnodup hactive

/-- When every id is active they are the ids that end. -/
theorem filterMap_active_fst {ids : List SeqId} {g : Sequence → Request}
    (hactive : ∀ id ∈ ids, ∃ seq, s.active id = some seq) :
    (ids.filterMap fun id => (s.active id).map fun seq => (id, g seq)).map Prod.fst = ids := by
  induction ids with
  | nil => rfl
  | cons id rest ih =>
    obtain ⟨seq, hseq⟩ := hactive id (by simp)
    simp [hseq, ih fun a ha => hactive a (by simp [ha])]

end Scheduler

/-! ## The update after a batch -/

/-- What an execution output holds for one sequence. -/
structure OutputRow where
  token : TokenId
  logprobs : Option (Option TokenLogprobs)

/-- The rows of an execution output for the sequences from an index on. -/
def ExecutionOutput.rowsFrom (o : ExecutionOutput) : Nat → List SeqId → List (SeqId × OutputRow)
  | _, [] => []
  | index, seqId :: rest =>
      match o.nextTokens[index]? with
      | some token => (seqId, ⟨token, o.logprobs[index]?⟩) :: o.rowsFrom (index + 1) rest
      | none => o.rowsFrom (index + 1) rest

def ExecutionOutput.rows (o : ExecutionOutput) : List (SeqId × OutputRow) :=
  o.rowsFrom 0 o.seqIds

/-- A sequence after its row: in the decode phase, one token longer. -/
def Sequence.next (seq : Sequence) (row : OutputRow) : Sequence :=
  { seq with request := { seq.request with state := .decode } }.appendToken row.token row.logprobs

namespace Scheduler

variable {s s' : Scheduler} {id : SeqId} {seq : Sequence}

/-- Does the row end its sequence? -/
def finishes (s : Scheduler) (eosTokenId : TokenId) (seq : Sequence) : Bool :=
  seq.request.isFinished s.config.maxModelLen.toNat eosTokenId

theorem finishes_congr (h : s'.config = s.config) : s'.finishes = s.finishes := by
  funext eos seq
  rw [finishes, finishes, h]

structure RowsApplied (st : UpdateState) (eosTokenId : TokenId) (rows : List (SeqId × OutputRow))
    (st' : UpdateState) : Prop where
  moves : Moves st.scheduler st'.scheduler
  prefill : ∀ a : Nat, st'.scheduler.prefillSequences[a]? =
    if (rows.lookup a).isSome then none else st.scheduler.prefillSequences[a]?
  decode : ∀ a : Nat, st'.scheduler.decodeSequences[a]? =
    match rows.lookup a with
    | some row => (st.scheduler.active a).map (·.next row)
    | none => st.scheduler.decodeSequences[a]?
  pending : st'.scheduler.pendingQueue = st.scheduler.pendingQueue
  completed : st'.scheduler.completedRequests = st.scheduler.completedRequests
  toFail : st'.toFail = st.toFail
  toComplete : st'.toComplete = st.toComplete ++ rows.filterMap fun (id, row) =>
    (st.scheduler.active id).bind fun seq =>
      if st.scheduler.finishes eosTokenId (seq.next row) then some id else none

namespace RowsApplied

variable {eosTokenId : TokenId} {st st' st'' : UpdateState}

theorem refl (eosTokenId : TokenId) (st : UpdateState) : RowsApplied st eosTokenId [] st :=
  ⟨.refl, by simp, by simp, rfl, rfl, rfl, by simp⟩

/-- Prepending a row for another sequence. -/
theorem trans {row : OutputRow} {rows : List (SeqId × OutputRow)} (hw : st.scheduler.Wf)
    (hid : id ∉ rows.map (·.1)) (h : RowsApplied st eosTokenId [(id, row)] st')
    (h' : RowsApplied st' eosTokenId rows st'') :
    RowsApplied st eosTokenId ((id, row) :: rows) st'' := by
  have hkeep : ∀ a : Nat, id ≠ a → st'.scheduler.active a = st.scheduler.active a := by
    intro a ha
    simp [active, h.prefill, h.decode, IdMap.lookup_cons_ne ha]
  have hnone := IdMap.lookup_eq_none_of_not_mem hid
  refine ⟨h.moves.trans h'.moves, ?_, ?_, h'.pending.trans h.pending,
    h'.completed.trans h.completed, h'.toFail.trans h.toFail, ?_⟩
  · intro a
    rw [h'.prefill, h.prefill]
    rcases eq_or_ne id a with rfl | hne
    · simp [hnone]
    · rw [IdMap.lookup_cons_ne hne, IdMap.lookup_cons_ne hne]
      simp
  · intro a
    rw [h'.decode, h.decode]
    rcases eq_or_ne id a with rfl | hne
    · simp [hnone]
    · simp [IdMap.lookup_cons_ne hne, hkeep a hne]
  · have hconfig : st'.scheduler.config = st.scheduler.config :=
      (Moves.evolves hw h.moves).config
    have hfilter : (rows.filterMap fun (a, row) => (st'.scheduler.active a).bind fun seq =>
          if st'.scheduler.finishes eosTokenId (seq.next row) then some a else none) =
        rows.filterMap fun (a, row) => (st.scheduler.active a).bind fun seq =>
          if st.scheduler.finishes eosTokenId (seq.next row) then some a else none := by
      refine List.filterMap_congr fun p hp => ?_
      have hne : id ≠ p.1 := fun heq => hid (heq ▸ List.mem_map_of_mem hp)
      simp only [hkeep p.1 hne, finishes_congr hconfig]
    rw [h'.toComplete, h.toComplete, hfilter, List.append_assoc, ← List.filterMap_append]
    rfl

theorem active_of_lookup {rows : List (SeqId × OutputRow)} {row : OutputRow} {a : SeqId}
    (h : RowsApplied st eosTokenId rows st') (hlookup : rows.lookup a = some row) :
    st'.scheduler.active a = (st.scheduler.active a).map (·.next row) := by
  simp [active, h.prefill, h.decode, hlookup]

theorem toComplete_nodup {rows : List (SeqId × OutputRow)} (h : RowsApplied st eosTokenId rows st')
    (hnone : st.toComplete = []) (hrows : (rows.map (·.1)).Nodup) : st'.toComplete.Nodup := by
  rw [h.toComplete, hnone, List.nil_append]
  refine (List.pairwise_map.1 hrows).filterMap _ ?_
  intro p q hne a ha b hb
  simp only [Option.bind_eq_some_iff, Option.ite_none_right_eq_some, Option.some.injEq] at ha hb
  obtain ⟨_, _, _, rfl⟩ := ha
  obtain ⟨_, _, _, rfl⟩ := hb
  exact hne

end RowsApplied

/-- An active sequence is in decode after its transition, whatever it was in before. -/
theorem transitionPrefillToDecode_spec (hw : s.Wf) (hseq : s.active id = some seq) :
    ∃ s', s.transitionPrefillToDecode id = s' ∧ s'.config = s.config ∧
      s'.pendingQueue = s.pendingQueue ∧ s'.completedRequests = s.completedRequests ∧
      (∀ a : Nat, s'.prefillSequences[a]? = if id = a then none else s.prefillSequences[a]?) ∧
      ∀ a : Nat, s'.decodeSequences[a]? =
        if id = a then some { seq with request := { seq.request with state := .decode } }
        else s.decodeSequences[a]? := by
  refine ⟨_, rfl, ?_⟩
  rcases Option.or_eq_some_iff.1 hseq with hprefill | ⟨hnone, hdecode⟩
  · simp only [transitionPrefillToDecode, hprefill]
    exact ⟨trivial, trivial, trivial, IdMap.get_erase _ _, (IdMap.get_insert _ _ · _)⟩
  · have htag : { seq with request := { seq.request with state := .decode } } = seq := by
      rw [← (hw.decode_tag hdecode).2]
    simp only [transitionPrefillToDecode, hnone, htag, true_and]
    constructor
    · intro a
      split
      next ha => rw [← ha, hnone]
      next => rfl
    · intro a
      split
      next ha => rw [← ha, hdecode]
      next => rfl

/-- One row of a well-formed output. -/
theorem updateRow_applied {outputs : ExecutionOutput} (eosTokenId : TokenId) {st : UpdateState}
    {index : Nat} {token : TokenId} (hw : st.scheduler.Wf)
    (htoken : outputs.nextTokens[index]? = some token)
    (hseq : st.scheduler.active id = some seq) :
    RowsApplied st eosTokenId [(id, ⟨token, outputs.logprobs[index]?⟩)]
      (updateRow outputs eosTokenId st index id) := by
  have hmoves := updateRow_moves outputs eosTokenId st index id
  obtain ⟨s, hs, hconfig, hpending, hcompleted, hprefill, hdecode⟩ :=
    transitionPrefillToDecode_spec hw hseq
  have hget : s.decodeSequences[id]? =
      some { seq with request := { seq.request with state := .decode } } := by simp [hdecode]
  have hfin : s.config.maxModelLen = st.scheduler.config.maxModelLen := by rw [hconfig]
  rw [updateRow, htoken] at hmoves ⊢
  simp only [hs, hget] at hmoves ⊢
  have hmaps : ∀ a : Nat, (s.decodeSequences.insert id
      (seq.next ⟨token, outputs.logprobs[index]?⟩))[a]? =
      match List.lookup a [(id, OutputRow.mk token outputs.logprobs[index]?)] with
      | some row => (st.scheduler.active a).map (·.next row)
      | none => st.scheduler.decodeSequences[a]? := by
    intro a
    rw [IdMap.get_insert]
    rcases eq_or_ne id a with rfl | hne
    · simp [hseq]
    · simp [IdMap.lookup_cons_ne hne, hdecode, hne]
  have hprefill' : ∀ a : Nat, s.prefillSequences[a]? =
      if (List.lookup a [(id, OutputRow.mk token outputs.logprobs[index]?)]).isSome then none
      else st.scheduler.prefillSequences[a]? := by
    intro a
    rw [hprefill]
    rcases eq_or_ne id a with rfl | hne
    · simp
    · simp [IdMap.lookup_cons_ne hne, hne]
  split at hmoves
  next hdone =>
    rw [if_pos hdone]
    refine ⟨hmoves, hprefill', hmaps, hpending, hcompleted, rfl, ?_⟩
    rw [hfin] at hdone
    simp [hseq, finishes, Sequence.next, hdone]
  next hdone =>
    rw [if_neg hdone]
    refine ⟨hmoves, hprefill', hmaps, hpending, hcompleted, rfl, ?_⟩
    rw [hfin] at hdone
    simp [hseq, finishes, Sequence.next, hdone]

theorem updateRows_applied {outputs : ExecutionOutput} (eosTokenId : TokenId) (st : UpdateState)
    {ids : List SeqId} {index : Nat} (hw : st.scheduler.Wf) (hnodup : ids.Nodup)
    (hlen : index + ids.length ≤ outputs.nextTokens.length)
    (hactive : ∀ id ∈ ids, ∃ seq, st.scheduler.active id = some seq) :
    RowsApplied st eosTokenId (outputs.rowsFrom index ids)
      (updateRows outputs eosTokenId index ids st) ∧
        (outputs.rowsFrom index ids).map (·.1) = ids := by
  induction ids generalizing index st with
  | nil => exact ⟨.refl _ _, rfl⟩
  | cons id rest ih =>
    obtain ⟨hid, hrest⟩ := List.nodup_cons.1 hnodup
    obtain ⟨seq, hseq⟩ := hactive id (by simp)
    rw [List.length_cons] at hlen
    obtain ⟨token, htoken⟩ : ∃ token, outputs.nextTokens[index]? = some token :=
      ⟨_, List.getElem?_eq_getElem (by omega : index < outputs.nextTokens.length)⟩
    have hone := updateRow_applied eosTokenId hw htoken hseq
    have hw' := (Moves.evolves hw hone.moves).wf
    have hlen' : index + 1 + rest.length ≤ outputs.nextTokens.length := by omega
    obtain ⟨hall, hids⟩ := ih _ hw' hrest hlen' fun a ha => by
      obtain ⟨b, hb⟩ := hactive a (by simp [ha])
      have hne : a ≠ id := fun h => hid (h ▸ ha)
      refine ⟨b, ?_⟩
      rw [← hb]
      simp [active, hone.prefill, hone.decode, IdMap.lookup_cons_ne hne.symm]
    rw [ExecutionOutput.rowsFrom, htoken]
    dsimp only
    exact ⟨hone.trans hw (by rwa [hids]) hall, by rw [List.map_cons, hids]⟩

/-- What the update does to each sequence of a batch, and that it does nothing else. -/
structure Updated (s : Scheduler) (eosTokenId : TokenId) (rows : List (SeqId × OutputRow))
    (s' : Scheduler) : Prop where
  moves : Moves s s'
  prefill : ∀ a : Nat, s'.prefillSequences[a]? =
    if (rows.lookup a).isSome then none else s.prefillSequences[a]?
  decode : ∀ a : Nat, s'.decodeSequences[a]? =
    match rows.lookup a with
    | some row => (s.active a).bind fun seq =>
        if s.finishes eosTokenId (seq.next row) then none else some (seq.next row)
    | none => s.decodeSequences[a]?
  pending : s'.pendingQueue = s.pendingQueue
  completed : s'.completedRequests = s.completedRequests ++ rows.filterMap fun (id, row) =>
    (s.active id).bind fun seq =>
      if s.finishes eosTokenId (seq.next row) then
        some (id, { (seq.next row).request with state := .completed })
      else none

private theorem mem_toComplete {eosTokenId : TokenId} {rows : List (SeqId × OutputRow)}
    (hnodup : (rows.map (·.1)).Nodup) {a : SeqId} :
    (a ∈ rows.filterMap fun (id, row) => (s.active id).bind fun seq =>
        if s.finishes eosTokenId (seq.next row) then some id else none) ↔
      ∃ row seq, rows.lookup a = some row ∧ s.active a = some seq ∧
        s.finishes eosTokenId (seq.next row) = true := by
  simp only [List.mem_filterMap, Option.bind_eq_some_iff, Option.ite_none_right_eq_some,
    Option.some.injEq, Prod.exists]
  constructor
  · rintro ⟨id, row, hmem, seq, hseq, hfin, rfl⟩
    exact ⟨row, seq, IdMap.lookup_eq_some_of_mem hnodup hmem, hseq, hfin⟩
  · rintro ⟨row, seq, hlookup, hseq, hfin⟩
    exact ⟨a, row, IdMap.mem_of_lookup_eq_some hlookup, seq, hseq, hfin, rfl⟩

/-- The update for an output that has one token for each of its distinct, active ids. -/
theorem updateSequences_updated {outputs : ExecutionOutput} (eosTokenId : TokenId) (hw : s.Wf)
    (hnodup : outputs.seqIds.Nodup) (hlen : outputs.nextTokens.length = outputs.seqIds.length)
    (hactive : ∀ id ∈ outputs.seqIds, ∃ seq, s.active id = some seq) :
    s.Updated eosTokenId outputs.rows (s.updateSequences outputs eosTokenId) := by
  have hlen' : 0 + outputs.seqIds.length ≤ outputs.nextTokens.length := by omega
  obtain ⟨happlied, hids⟩ :=
    updateRows_applied eosTokenId { scheduler := s } hw hnodup hlen' hactive
  have hrows : (outputs.rows.map (·.1)).Nodup := by rwa [ExecutionOutput.rows, hids]
  change RowsApplied _ _ outputs.rows _ at happlied
  rw [updateSequences]
  set st := updateRows outputs eosTokenId 0 outputs.seqIds { scheduler := s }
  have hfail : st.toFail = [] := happlied.toFail
  have hcomplete := happlied.toComplete
  rw [List.nil_append] at hcomplete
  have hmem (a : SeqId) : a ∈ st.toComplete ↔ ∃ row seq, outputs.rows.lookup a = some row ∧
      s.active a = some seq ∧ s.finishes eosTokenId (seq.next row) = true := by
    rw [hcomplete]
    exact mem_toComplete hrows
  have hactive' : ∀ a ∈ st.toComplete, ∃ seq, st.scheduler.active a = some seq := by
    intro a ha
    obtain ⟨row, seq, hlookup, hseq, -⟩ := (hmem a).1 ha
    exact ⟨seq.next row, by rw [happlied.active_of_lookup hlookup, hseq, Option.map_some]⟩
  have hnodup' : st.toComplete.Nodup := happlied.toComplete_nodup rfl hrows
  have hall := completeAll_removedAll (Moves.evolves hw happlied.moves).wf hnodup' hactive'
  have hends := filterMap_active_fst (g := fun seq => { seq.request with state := .completed })
    hactive'
  simp only [hfail, failAll, List.foldl_nil]
  refine ⟨happlied.moves.trans hall.moves, ?_, ?_, hall.pending.trans happlied.pending, ?_⟩
  · intro a
    rw [hall.prefill, happlied.prefill, hends]
    split
    next ha =>
      obtain ⟨row, -, hlookup, -⟩ := (hmem a).1 ha
      simp [hlookup]
    next => rfl
  · intro a
    rw [hall.decode, happlied.decode, hends]
    cases hlookup : outputs.rows.lookup a with
    | none =>
        have hno : a ∉ st.toComplete := fun ha => by
          obtain ⟨row, -, hrow, -⟩ := (hmem a).1 ha
          simp [hlookup] at hrow
        rw [if_neg hno]
    | some row =>
        dsimp only
        cases hseq : s.active a with
        | none => simp
        | some seq =>
            have hiff : a ∈ st.toComplete ↔ s.finishes eosTokenId (seq.next row) = true := by
              rw [hmem a]
              constructor
              · rintro ⟨row', seq', hrow, hseq', hfin⟩
                obtain rfl : row = row' := Option.some.inj (hlookup.symm.trans hrow)
                obtain rfl : seq = seq' := Option.some.inj (hseq.symm.trans hseq')
                exact hfin
              · exact fun hfin => ⟨row, seq, hlookup, hseq, hfin⟩
            simp [hiff]
  · rw [hall.completed, happlied.completed, hcomplete, List.filterMap_filterMap]
    refine congrArg (s.completedRequests ++ ·) (List.filterMap_congr ?_)
    rintro ⟨id, row⟩ hp
    have hlookup := IdMap.lookup_eq_some_of_mem hrows hp
    dsimp only
    cases hseq : s.active id with
    | none => rfl
    | some seq =>
        simp only [Option.bind_some]
        split
        next => simp [happlied.active_of_lookup hlookup, hseq]
        next => rfl

end Scheduler

end PagedServing
