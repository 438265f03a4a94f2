import PagedServing.Executor.Cpu

/-! # Cache rows through a block table

What a sequence has stored is read back through its table. It survives every write
into other blocks, and every write of the sequence itself at a later position.
-/

namespace PagedServing

variable {V : Type}

namespace CpuReferenceExecutor

variable {x x' x'' : CpuReferenceExecutor V} {id : SeqId} {blockTable blockTable' : List BlockIdx}
  {layerIdx pos i : Nat} {row : KvRow V}

/-- Every cache block has one row for each of its offsets. -/
def Formed (x : CpuReferenceExecutor V) : Prop :=
  ∀ key block, x.kvCache key = some block → block.length = x.blockSize

/-- Only the blocks of a table, and only at the layers of the model, may have changed. -/
structure Touches (x : CpuReferenceExecutor V) (blockTable : List BlockIdx)
    (x' : CpuReferenceExecutor V) : Prop where
  config : x'.config = x.config
  vocabSize : x'.vocabSize = x.vocabSize
  model : x'.model = x.model
  seqBlockTables : x'.seqBlockTables = x.seqBlockTables
  kvCache : ∀ layerIdx blockIdx, blockIdx ∉ blockTable ∨ numLayers ≤ layerIdx →
    x'.kvCache (layerIdx, blockIdx) = x.kvCache (layerIdx, blockIdx)

namespace Touches

theorem refl (x : CpuReferenceExecutor V) (blockTable : List BlockIdx) : x.Touches blockTable x :=
  ⟨rfl, rfl, rfl, rfl, fun _ _ _ => rfl⟩

theorem trans (h : x.Touches blockTable x') (h' : x'.Touches blockTable x'') :
    x.Touches blockTable x'' :=
  ⟨h'.config.trans h.config, h'.vocabSize.trans h.vocabSize, h'.model.trans h.model,
    h'.seqBlockTables.trans h.seqBlockTables, fun layerIdx blockIdx hout =>
      (h'.kvCache layerIdx blockIdx hout).trans (h.kvCache layerIdx blockIdx hout)⟩

theorem blockSize (h : x.Touches blockTable x') : x'.blockSize = x.blockSize := by
  rw [CpuReferenceExecutor.blockSize, h.config, CpuReferenceExecutor.blockSize]

theorem visit (x : CpuReferenceExecutor V) (id : SeqId) (blockTable : List BlockIdx) (pos : Nat) :
    x.Touches blockTable (x.recordVisit id blockTable pos) := ⟨rfl, rfl, rfl, rfl, fun _ _ _ => rfl⟩

end Touches

/-! ## Reading -/

theorem readRow_eq_ok :
    x.readRow blockTable layerIdx i = .ok row ↔
      ∃ blockIdx block, blockTable[i / x.blockSize]? = some blockIdx ∧
        x.kvCache (layerIdx, blockIdx) = some block ∧ block[i % x.blockSize]? = some row := by
  rw [readRow]
  cases htable : blockTable[i / x.blockSize]? with
  | none => simp
  | some blockIdx =>
      cases hcache : x.kvCache (layerIdx, blockIdx) with
      | none => simp [hcache]
      | some block =>
          cases hrow : block[i % x.blockSize]? with
          | none => simp [hcache, hrow]
          | some found => simp [hcache, hrow]

theorem readRow_congr (hsize : x'.blockSize = x.blockSize)
    (hkv : ∀ blockIdx ∈ blockTable,
      x'.kvCache (layerIdx, blockIdx) = x.kvCache (layerIdx, blockIdx)) (i : Nat) :
    x'.readRow blockTable layerIdx i = x.readRow blockTable layerIdx i := by
  rw [readRow, readRow, hsize]
  cases htable : blockTable[i / x.blockSize]? with
  | none => rfl
  | some blockIdx =>
      dsimp only
      rw [hkv blockIdx (List.mem_of_getElem? htable)]

theorem Touches.readRow (h : x.Touches blockTable x') (hdisj : blockTable'.Disjoint blockTable)
    (layerIdx i : Nat) : x'.readRow blockTable' layerIdx i = x.readRow blockTable' layerIdx i :=
  readRow_congr h.blockSize (fun blockIdx hmem => h.kvCache layerIdx blockIdx (.inl (hdisj hmem))) i

theorem readRow_extend (h : x.readRow blockTable layerIdx i = .ok row)
    (hext : blockTable <+: blockTable') : x.readRow blockTable' layerIdx i = .ok row := by
  obtain ⟨blockIdx, block, htable, hcache, hrow⟩ := readRow_eq_ok.1 h
  obtain ⟨more, rfl⟩ := hext
  refine readRow_eq_ok.2 ⟨blockIdx, block, ?_, hcache, hrow⟩
  rw [List.getElem?_append_left (List.getElem?_eq_some_iff.1 htable).1, htable]

/-! ## Writing -/

section Write

variable {blockIdx : BlockIdx} {offset layerIdx' : Nat}

theorem writeRow_kvCache (x : CpuReferenceExecutor V) (layerIdx : Nat) (blockIdx : BlockIdx)
    (offset : Nat) (row : KvRow V) (key : Nat × BlockIdx) :
    (x.writeRow layerIdx blockIdx offset row).kvCache key =
      if key = (layerIdx, blockIdx) then
        some (((x.kvCache (layerIdx, blockIdx)).getD
          (List.replicate x.blockSize ⟨x.model.zeroRow, x.model.zeroRow, none⟩)).set offset row)
      else x.kvCache key := by
  simp only [writeRow, Function.update_apply]

@[simp] theorem writeRow_model (x : CpuReferenceExecutor V) (layerIdx : Nat) (blockIdx : BlockIdx)
    (offset : Nat) (row : KvRow V) : (x.writeRow layerIdx blockIdx offset row).model = x.model :=
  rfl

theorem writeRow_touches (hlayer : layerIdx < numLayers) (hmem : blockIdx ∈ blockTable) :
    x.Touches blockTable (x.writeRow layerIdx blockIdx offset row) := by
  refine ⟨rfl, rfl, rfl, rfl, fun layerIdx' blockIdx' hout => ?_⟩
  rw [writeRow_kvCache, if_neg]
  rintro heq
  obtain ⟨rfl, rfl⟩ := Prod.mk.inj heq
  rcases hout with hout | hout
  · exact hout hmem
  · exact absurd hlayer (Nat.not_lt.2 hout)

theorem Formed.written (hx : x.Formed) :
    ((x.kvCache (layerIdx, blockIdx)).getD
      (List.replicate x.blockSize ⟨x.model.zeroRow, x.model.zeroRow, none⟩)).length =
        x.blockSize := by
  cases hold : x.kvCache (layerIdx, blockIdx) with
  | none => simp
  | some block => exact hx _ _ hold

theorem Formed.writeRow (hx : x.Formed) : (x.writeRow layerIdx blockIdx offset row).Formed := by
  intro key block hblock
  rw [writeRow_kvCache] at hblock
  split at hblock
  next =>
    obtain rfl := Option.some.inj hblock
    rw [List.length_set]
    exact hx.written
  next => exact hx key block hblock

theorem readRow_writeRow (hx : x.Formed) (hbs : 0 < x.blockSize)
    (htable : blockTable[pos / x.blockSize]? = some blockIdx) :
    (x.writeRow layerIdx blockIdx (pos % x.blockSize) row).readRow blockTable layerIdx pos =
      .ok row := by
  refine readRow_eq_ok.2 ⟨blockIdx, _, htable, (writeRow_kvCache ..).trans (if_pos rfl), ?_⟩
  have hoffset : pos % x.blockSize < x.blockSize := Nat.mod_lt _ hbs
  exact List.getElem?_set_self (by rwa [hx.written])

/-- A write at `pos` leaves the rows of every other position of the table. -/
theorem readRow_writeRow_ne {row' : KvRow V} (hnodup : blockTable.Nodup)
    (htable : blockTable[pos / x.blockSize]? = some blockIdx)
    (hne : layerIdx ≠ layerIdx' ∨ i ≠ pos) (h : x.readRow blockTable layerIdx' i = .ok row') :
    (x.writeRow layerIdx blockIdx (pos % x.blockSize) row).readRow blockTable layerIdx' i =
      .ok row' := by
  obtain ⟨blockIdx', block, htable', hcache, hrow⟩ := readRow_eq_ok.1 h
  by_cases hkey : (layerIdx', blockIdx') = (layerIdx, blockIdx)
  · obtain ⟨rfl, rfl⟩ := Prod.mk.inj hkey
    refine readRow_eq_ok.2 ⟨_, _, htable', (writeRow_kvCache ..).trans (if_pos rfl), ?_⟩
    have hlt : i / x.blockSize < blockTable.length := (List.getElem?_eq_some_iff.1 htable').1
    have hdiv : i / x.blockSize = pos / x.blockSize :=
      (List.getElem?_inj hlt hnodup).1 (htable'.trans htable.symm)
    have hmod : pos % x.blockSize ≠ i % x.blockSize := by
      intro heq
      have hpos : i ≠ pos := hne.resolve_left (fun hlayer => hlayer rfl)
      exact hpos (by rw [← Nat.div_add_mod i x.blockSize, ← Nat.div_add_mod pos x.blockSize, hdiv,
        heq])
    rw [hcache, Option.getD_some]
    exact (List.getElem?_set_ne hmod).trans hrow
  · exact readRow_eq_ok.2 ⟨blockIdx', block, htable',
      (writeRow_kvCache ..).trans ((if_neg hkey).trans hcache), hrow⟩

end Write

end CpuReferenceExecutor

end PagedServing
