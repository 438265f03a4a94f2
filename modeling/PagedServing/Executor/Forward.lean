import PagedServing.Executor.Reference

/-! # The paged pass follows the reference

One lemma for each level of the forward pass: a layer, the layers, the tokens. Each
says which rows may change, that the visits recorded on the way read only rows of
their own sequence, and that the result is the reference's.
-/

namespace PagedServing

variable {V : Type}

/-- Every row of an earlier position was written by the visiting sequence for that
position. -/
def Visit.Owned (blockSize : Nat) (v : Visit V) : Prop :=
  ∀ layerIdx < numLayers, ∀ i < v.position, ∃ blockIdx block row,
    v.blockTable[i / blockSize]? = some blockIdx ∧ v.kvCache (layerIdx, blockIdx) = some block ∧
      block[i % blockSize]? = some row ∧ row.writer = some (v.seqId, i)

namespace CpuReferenceExecutor

variable {x x' x'' : CpuReferenceExecutor V} {id : SeqId} {blockTable : List BlockIdx}
  {layerIdx pos pos' : Nat} {hidden : V} {kv : KvLists V} {tokens : List TokenId}

/-! ## What a pass may change -/

/-- A pass over one table from position `pos` on. -/
structure Writes (x : CpuReferenceExecutor V) (blockTable : List BlockIdx) (pos : Nat)
    (x' : CpuReferenceExecutor V) : Prop where
  touches : x.Touches blockTable x'
  formed : x.Formed → x'.Formed
  keeps : ∀ layerIdx i row, i < pos → x.readRow blockTable layerIdx i = .ok row →
    x'.readRow blockTable layerIdx i = .ok row

namespace Writes

theorem refl (x : CpuReferenceExecutor V) (blockTable : List BlockIdx) (pos : Nat) :
    x.Writes blockTable pos x := ⟨.refl x blockTable, id, fun _ _ _ _ h => h⟩

theorem trans (h : x.Writes blockTable pos x') (h' : x'.Writes blockTable pos' x'')
    (hle : pos ≤ pos') : x.Writes blockTable pos x'' :=
  ⟨h.touches.trans h'.touches, fun hx => h'.formed (h.formed hx), fun layerIdx i row hi hrow =>
    h'.keeps layerIdx i row (Nat.lt_of_lt_of_le hi hle) (h.keeps layerIdx i row hi hrow)⟩

theorem visit (x : CpuReferenceExecutor V) (id : SeqId) (blockTable : List BlockIdx) (pos : Nat) :
    x.Writes blockTable pos (x.recordVisit id blockTable pos) :=
  ⟨.visit x id blockTable pos, fun hx => hx, fun _ _ _ _ h => h⟩

end Writes

@[simp] theorem recordVisit_model (x : CpuReferenceExecutor V) (id : SeqId)
    (blockTable : List BlockIdx) (pos : Nat) : (x.recordVisit id blockTable pos).model = x.model :=
  rfl

@[simp] theorem recordVisit_vocabSize (x : CpuReferenceExecutor V) (id : SeqId)
    (blockTable : List BlockIdx) (pos : Nat) :
    (x.recordVisit id blockTable pos).vocabSize = x.vocabSize := rfl

theorem writeRow_writes {blockIdx : BlockIdx} {row : KvRow V} (hnodup : blockTable.Nodup)
    (hlayer : layerIdx < numLayers) (htable : blockTable[pos / x.blockSize]? = some blockIdx) :
    x.Writes blockTable pos (x.writeRow layerIdx blockIdx (pos % x.blockSize) row) :=
  ⟨writeRow_touches hlayer (List.mem_of_getElem? htable), fun hx => hx.writeRow,
    fun _ _ _ hi hrow => readRow_writeRow_ne hnodup htable (.inr hi.ne) hrow⟩

theorem forwardLayer_writes (x : CpuReferenceExecutor V) (id : SeqId) (pos : Nat) (hidden : V)
    (hnodup : blockTable.Nodup) (hlayer : layerIdx < numLayers) :
    x.Writes blockTable pos (x.forwardLayer id blockTable pos hidden layerIdx).2 := by
  rw [forwardLayer]
  cases htable : blockTable[pos / x.blockSize]? with
  | none => exact .refl x blockTable pos
  | some blockIdx =>
      dsimp only
      split <;> exact writeRow_writes hnodup hlayer htable

theorem forwardLayers_writes (id : SeqId) (pos : Nat) (hnodup : blockTable.Nodup)
    {layers : List Nat} (hlayers : ∀ layerIdx ∈ layers, layerIdx < numLayers) (hidden : V)
    (x : CpuReferenceExecutor V) :
    x.Writes blockTable pos (forwardLayers id blockTable pos layers hidden x).2 := by
  induction layers generalizing hidden x with
  | nil => exact .refl x blockTable pos
  | cons layerIdx rest ih =>
      have hfirst := forwardLayer_writes x id pos hidden hnodup (hlayers _ List.mem_cons_self)
      have hrest := ih fun layerIdx hmem => hlayers layerIdx (List.mem_cons_of_mem _ hmem)
      rw [forwardLayers]
      split
      next e x' heq =>
        rw [heq] at hfirst
        exact hfirst
      next hidden' x' heq =>
        rw [heq] at hfirst
        exact hfirst.trans (hrest hidden' x') le_rfl

/-! ## Layers -/

/-- Reading through the table gives back the private list of the layer. -/
def Stored (x : CpuReferenceExecutor V) (id : SeqId) (blockTable : List BlockIdx)
    (layerIdx : Nat) (kvs : List (V × V)) : Prop :=
  ∀ i kv, kvs[i]? = some kv →
    x.readRow blockTable layerIdx i = .ok ⟨kv.1, kv.2, some (id, i)⟩

def Holds (x : CpuReferenceExecutor V) (id : SeqId) (blockTable : List BlockIdx)
    (kv : KvLists V) : Prop :=
  ∀ layerIdx < numLayers, x.Stored id blockTable layerIdx (kv layerIdx)

/-- The pass ended as the reference did: with its value and its lists, or without. -/
def Follows {α : Type} (id : SeqId) (blockTable : List BlockIdx)
    (r : Option (α × KvLists V)) (result : Except EngineError α × CpuReferenceExecutor V) : Prop :=
  match r with
  | none => result.1 = .error .invalidOutput
  | some (a, kv) => result.1 = .ok a ∧ result.2.Holds id blockTable kv

theorem readRows_of_stored {kvs : List (V × V)} (h : x.Stored id blockTable layerIdx kvs) :
    ∃ rows, (List.range kvs.length).mapM (x.readRow blockTable layerIdx) = .ok rows ∧
      rows.map (fun row => (row.k, row.v)) = kvs := by
  induction kvs using List.reverseRecOn with
  | nil => exact ⟨[], rfl, rfl⟩
  | append_singleton kvs kv ih =>
      have hinit : x.Stored id blockTable layerIdx kvs := by
        intro i kv' hi
        refine h i kv' ?_
        rw [List.getElem?_append_left (List.getElem?_eq_some_iff.1 hi).1, hi]
      obtain ⟨rows, hrows, hmap⟩ := ih hinit
      have hlast := h kvs.length kv (by simp)
      refine ⟨rows ++ [⟨kv.1, kv.2, some (id, kvs.length)⟩], ?_, by simp [hmap]⟩
      rw [List.length_append, List.length_singleton, List.range_succ, List.mapM_append, hrows]
      simp only [List.mapM_cons, List.mapM_nil, hlast]
      rfl

theorem attention_of_stored {kvs : List (V × V)} (h : x.Stored id blockTable layerIdx kvs)
    (hlen : kvs.length = pos + 1) (q : V) :
    x.attention q blockTable pos layerIdx =
      match x.model.attend q kvs with
      | none => .error .invalidOutput
      | some out => .ok out := by
  obtain ⟨rows, hrows, hmap⟩ := readRows_of_stored h
  rw [hlen] at hrows
  cases hout : x.model.attend q kvs with
  | none => simp [attention, hrows, hmap, hout]
  | some out => simp [attention, hrows, hmap, hout]

/-- The row written at the end of the list, and the list before it. -/
theorem stored_writeRow {blockIdx : BlockIdx} {k v : V} {kvs : List (V × V)} (hx : x.Formed)
    (hbs : 0 < x.blockSize) (hnodup : blockTable.Nodup)
    (htable : blockTable[pos / x.blockSize]? = some blockIdx)
    (hlen : kvs.length = pos) (h : x.Stored id blockTable layerIdx kvs) :
    (x.writeRow layerIdx blockIdx (pos % x.blockSize) ⟨k, v, some (id, pos)⟩).Stored id blockTable
      layerIdx (kvs ++ [(k, v)]) := by
  intro i kv hi
  rcases Nat.lt_trichotomy i kvs.length with hlt | rfl | hgt
  · rw [List.getElem?_append_left hlt] at hi
    exact readRow_writeRow_ne hnodup htable (.inr (by omega)) (h i kv hi)
  · obtain rfl : (k, v) = kv := by simpa using hi
    subst hlen
    exact readRow_writeRow hx hbs htable
  · rw [List.getElem?_eq_none (by simp; omega)] at hi
    cases hi

theorem forwardLayer_follows (hx : x.Formed) (hbs : 0 < x.blockSize) (hnodup : blockTable.Nodup)
    (hlayer : layerIdx < numLayers) (hlong : pos / x.blockSize < blockTable.length)
    (hlen : (kv layerIdx).length = pos) (h : x.Holds id blockTable kv) (hidden : V) :
    Follows id blockTable (x.model.referenceLayer pos hidden layerIdx kv)
      (x.forwardLayer id blockTable pos hidden layerIdx) := by
  obtain ⟨blockIdx, htable⟩ : ∃ blockIdx, blockTable[pos / x.blockSize]? = some blockIdx :=
    ⟨_, List.getElem?_eq_getElem hlong⟩
  rw [forwardLayer, CpuModel.referenceLayer]
  generalize x.model.query layerIdx hidden pos = q
  generalize x.model.key layerIdx hidden pos = k
  generalize x.model.value layerIdx hidden = v
  have hstored := stored_writeRow (k := k) (v := v) hx hbs hnodup htable hlen (h layerIdx hlayer)
  have hlength : (kv layerIdx ++ [(k, v)]).length = pos + 1 := by simp [hlen]
  have hattention := attention_of_stored hstored hlength q
  simp only [htable, hattention, writeRow_model]
  cases hout : x.model.attend q (kv layerIdx ++ [(k, v)]) with
  | none => exact rfl
  | some out =>
      refine ⟨rfl, fun other hother => ?_⟩
      by_cases heq : other = layerIdx
      · subst heq
        simpa using hstored
      · intro i row hi
        rw [Function.update_of_ne heq] at hi
        exact readRow_writeRow_ne hnodup htable (.inl (Ne.symm heq)) (h other hother i row hi)

theorem forwardLayers_follows (hbs : 0 < x.blockSize) (hnodup : blockTable.Nodup)
    (hlong : pos / x.blockSize < blockTable.length) {layers : List Nat} (hlayers : layers.Nodup)
    (hlen : ∀ layerIdx ∈ layers, layerIdx < numLayers ∧ (kv layerIdx).length = pos)
    (hx : x.Formed) (h : x.Holds id blockTable kv) (hidden : V) :
    Follows id blockTable (x.model.referenceLayers pos layers hidden kv)
      (forwardLayers id blockTable pos layers hidden x) := by
  induction layers generalizing hidden x kv with
  | nil => exact ⟨rfl, h⟩
  | cons layerIdx rest ih =>
      obtain ⟨hlayer, hfirst⟩ := hlen layerIdx List.mem_cons_self
      obtain ⟨hnotin, hrest⟩ := List.nodup_cons.1 hlayers
      have hfollows := forwardLayer_follows hx hbs hnodup hlayer hlong hfirst h hidden
      have hwrites := forwardLayer_writes x id pos hidden hnodup hlayer
      rw [forwardLayers, CpuModel.referenceLayers]
      cases hforward : x.forwardLayer id blockTable pos hidden layerIdx with
      | mk result x' =>
          rw [hforward] at hfollows hwrites
          cases href : x.model.referenceLayer pos hidden layerIdx kv with
          | none =>
              rw [href] at hfollows
              obtain rfl : result = .error .invalidOutput := hfollows
              exact rfl
          | some next =>
              rw [href] at hfollows
              obtain ⟨hresult, hholds⟩ := hfollows
              obtain rfl : result = .ok next.1 := hresult
              have hmodel : x'.model = x.model := hwrites.touches.model
              have hsize : x'.blockSize = x.blockSize := hwrites.touches.blockSize
              dsimp only
              rw [← hmodel]
              refine ih (by rwa [hsize]) (by rwa [hsize]) hrest (fun other hmem => ?_)
                (hwrites.formed hx) hholds next.1
              obtain ⟨hother, hotherLen⟩ := hlen other (List.mem_cons_of_mem _ hmem)
              have hne : other ≠ layerIdx := fun heq => hnotin (heq ▸ hmem)
              exact ⟨hother, by rw [CpuModel.referenceLayer_ne href hne, hotherLen]⟩

/-! ## Tokens -/

theorem recordVisit_owned (h : x.Holds id blockTable kv)
    (hlen : ∀ layerIdx < numLayers, (kv layerIdx).length = pos)
    (hx : ∀ v ∈ x.visits, v.Owned x.blockSize) :
    ∀ v ∈ (x.recordVisit id blockTable pos).visits, v.Owned x.blockSize := by
  intro v hv
  rcases List.mem_append.1 hv with hv | hv
  · exact hx v hv
  · obtain rfl := List.mem_singleton.1 hv
    intro layerIdx hlayer i hi
    have hlt : i < (kv layerIdx).length := by rwa [hlen layerIdx hlayer]
    have hrow := h layerIdx hlayer i _ (List.getElem?_eq_getElem hlt)
    obtain ⟨blockIdx, block, htable, hcache, hget⟩ := readRow_eq_ok.1 hrow
    exact ⟨blockIdx, block, _, htable, hcache, hget, rfl⟩

theorem forwardLayer_visits (x : CpuReferenceExecutor V) (id : SeqId)
    (blockTable : List BlockIdx) (pos : Nat) (hidden : V) (layerIdx : Nat) :
    (x.forwardLayer id blockTable pos hidden layerIdx).2.visits = x.visits := by
  rw [forwardLayer]
  cases blockTable[pos / x.blockSize]? with
  | none => rfl
  | some blockIdx =>
      dsimp only
      split <;> rfl

theorem forwardLayers_visits (id : SeqId) (blockTable : List BlockIdx) (pos : Nat)
    (layers : List Nat) (hidden : V) (x : CpuReferenceExecutor V) :
    (forwardLayers id blockTable pos layers hidden x).2.visits = x.visits := by
  induction layers generalizing hidden x with
  | nil => rfl
  | cons layerIdx rest ih =>
      have hfirst := forwardLayer_visits x id blockTable pos hidden layerIdx
      rw [forwardLayers]
      split
      next heq =>
        rw [heq] at hfirst
        exact hfirst
      next heq =>
        rw [heq] at hfirst
        exact (ih ..).trans hfirst

theorem forwardTokens_writes (id : SeqId) (hnodup : blockTable.Nodup)
    {pairs : List (TokenId × Nat)} (hpairs : ∀ pair ∈ pairs, pos ≤ pair.2) (hidden : V)
    (x : CpuReferenceExecutor V) :
    x.Writes blockTable pos (forwardTokens id blockTable pairs hidden x).2 := by
  induction pairs generalizing hidden x with
  | nil => exact .refl x blockTable pos
  | cons pair rest ih =>
      have hpos : pos ≤ pair.2 := hpairs pair List.mem_cons_self
      have hrest := ih fun other hmem => hpairs other (List.mem_cons_of_mem _ hmem)
      have hrange : ∀ layerIdx ∈ List.range numLayers, layerIdx < numLayers := fun _ hmem =>
        List.mem_range.1 hmem
      have hlayers := forwardLayers_writes id pair.2 hnodup hrange
        ((x.recordVisit id blockTable pair.2).model.embedding
          (min pair.1 ((x.recordVisit id blockTable pair.2).vocabSize - 1)))
        (x.recordVisit id blockTable pair.2)
      have hvisit := (Writes.visit x id blockTable pair.2).trans hlayers le_rfl
      have hstart := (Writes.refl x blockTable pos).trans hvisit hpos
      rw [forwardTokens]
      split
      next heq =>
        rw [heq] at hstart
        exact hstart
      next heq =>
        rw [heq] at hstart
        exact hstart.trans (hrest ..) le_rfl

/-- The positions of an entry run on from the rows stored so far. -/
theorem forwardTokens_follows (hbs : 0 < x.blockSize) (hnodup : blockTable.Nodup)
    (hlong : pos + tokens.length ≤ blockTable.length * x.blockSize)
    (hlen : ∀ layerIdx < numLayers, (kv layerIdx).length = pos)
    (hx : x.Formed) (h : x.Holds id blockTable kv) (howned : ∀ v ∈ x.visits, v.Owned x.blockSize)
    (hidden : V) :
    Follows id blockTable (x.model.referenceFrom x.vocabSize pos tokens hidden kv)
        (forwardTokens id blockTable (tokens.zip (List.range' pos tokens.length)) hidden x) ∧
      ∀ v ∈ (forwardTokens id blockTable (tokens.zip (List.range' pos tokens.length)) hidden
        x).2.visits, v.Owned x.blockSize := by
  induction tokens generalizing pos hidden x kv with
  | nil => exact ⟨⟨rfl, h⟩, howned⟩
  | cons token rest ih =>
      rw [List.length_cons] at hlong
      have hpos : pos / x.blockSize < blockTable.length := by
        rw [Nat.div_lt_iff_lt_mul hbs]
        omega
      have hlayers : ∀ layerIdx ∈ List.range numLayers,
          layerIdx < numLayers ∧ (kv layerIdx).length = pos := fun layerIdx hmem =>
        ⟨List.mem_range.1 hmem, hlen layerIdx (List.mem_range.1 hmem)⟩
      have hfollows := forwardLayers_follows (x := x.recordVisit id blockTable pos) hbs hnodup
        hpos List.nodup_range hlayers hx h (x.model.embedding (min token (x.vocabSize - 1)))
      have hwrites := (Writes.visit x id blockTable pos).trans
        (forwardLayers_writes id pos hnodup (fun _ hmem => List.mem_range.1 hmem)
          (x.model.embedding (min token (x.vocabSize - 1))) (x.recordVisit id blockTable pos))
        le_rfl
      have hvisits := forwardLayers_visits id blockTable pos (List.range numLayers)
        (x.model.embedding (min token (x.vocabSize - 1))) (x.recordVisit id blockTable pos)
      have hvisited := recordVisit_owned h hlen howned
      rw [List.length_cons, List.range'_succ, List.zip_cons_cons, forwardTokens,
        CpuModel.referenceFrom]
      cases hforward : forwardLayers id blockTable pos (List.range numLayers)
          (x.model.embedding (min token (x.vocabSize - 1))) (x.recordVisit id blockTable pos) with
      | mk result x' =>
          rw [hforward] at hfollows hwrites hvisits
          rw [recordVisit_model] at hfollows
          simp only [recordVisit_model, recordVisit_vocabSize, hforward]
          cases href : x.model.referenceLayers pos (List.range numLayers)
              (x.model.embedding (min token (x.vocabSize - 1))) kv with
          | none =>
              rw [href] at hfollows
              obtain rfl : result = .error .invalidOutput := hfollows
              exact ⟨rfl, by rwa [hvisits]⟩
          | some next =>
              rw [href] at hfollows
              obtain ⟨hresult, hholds⟩ := hfollows
              obtain rfl : result = .ok next.1 := hresult
              have hmodel : x'.model = x.model := hwrites.touches.model
              have hvocab : x'.vocabSize = x.vocabSize := hwrites.touches.vocabSize
              have hsize : x'.blockSize = x.blockSize := hwrites.touches.blockSize
              have hnext : ∀ layerIdx < numLayers, (next.2 layerIdx).length = pos + 1 := by
                intro layerIdx hlayer
                rw [CpuModel.referenceLayers_length href List.nodup_range
                  (List.mem_range.2 hlayer), hlen layerIdx hlayer]
              rw [← hmodel, ← hvocab, ← hsize]
              refine ih (by rwa [hsize]) ?_ hnext (hwrites.formed hx) hholds (by rwa [hvisits, hsize])
                next.1
              rw [hsize]
              omega

end CpuReferenceExecutor

end PagedServing
