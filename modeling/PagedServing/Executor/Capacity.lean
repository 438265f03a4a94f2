import PagedServing.Executor.TinyLlm

/-! # The reserve of a sequence

The capacity of a sequence is fixed when it first appears, from its length then and a
reserve that the environment sets without an upper bound. It covers the reserve unless the
sum of the two leaves the `i32` range.
-/

namespace PagedServing

open FixedWidth SignedWord

/-- The library grants every sequence the tokens asked for. -/
def TinyLlmSymbols.Grants {η : Type} (symbols : TinyLlmSymbols η) : Prop :=
  ∀ (handle : η) (id tokens : Int32), (symbols.allocateSequence handle id tokens).1 = 0

namespace TinyLlmExecutor

variable {η : Type} {mode : OverflowMode} {symbols : TinyLlmSymbols η}
  {x y z : TinyLlmExecutor η} {seqId : SeqId} {contextLen generated : Nat} {reserve : Int32}

/-! ## The recorded capacity -/

theorem allocTokensFor_of_lt (hpos : 0 ≤ reserve.toInt)
    (h : contextLen + reserve.toInt < 2 ^ 31) :
    ∃ capacity, allocTokensFor mode contextLen reserve = some capacity ∧
      capacity.toInt = max (contextLen + reserve.toInt) 64 := by
  have hlen : (Int32.ofNat contextLen).toInt = contextLen := Int32.toInt_ofNat_of_lt (by omega)
  refine ⟨max (Int32.ofNat contextLen + reserve) 64, ?_, ?_⟩
  · rw [allocTokensFor, add_of_lt (by omega) (by omega), Option.map_some]
  · rw [toInt_max, toInt_add_of_lt (by omega) (by omega), hlen]
    rfl

theorem allocTokensFor_checked_of_le (hlen : contextLen < 2 ^ 31)
    (h : 2 ^ 31 ≤ contextLen + reserve.toInt) :
    allocTokensFor .checked contextLen reserve = none := by
  rw [allocTokensFor, add_checked_of_le (by rwa [Int32.toInt_ofNat_of_lt hlen]), Option.map_none]

/-- A wrapped sum is negative, so only the lower limit is left of it. -/
theorem allocTokensFor_wrapping_of_le (hlen : contextLen < 2 ^ 31)
    (h : 2 ^ 31 ≤ contextLen + reserve.toInt) :
    allocTokensFor .wrapping contextLen reserve = some 64 := by
  have hsum := toInt_add_of_le (a := Int32.ofNat contextLen) (b := reserve)
    (by rwa [Int32.toInt_ofNat_of_lt hlen])
  rw [Int32.toInt_ofNat_of_lt hlen] at hsum
  have hreserve := reserve.toInt_lt
  have hmax : (max (Int32.ofNat contextLen + reserve) 64).toInt = (64 : Int32).toInt := by
    rw [toInt_max, hsum]
    change max _ (64 : Int) = 64
    omega
  rw [allocTokensFor, add_wrapping, Option.map_some, Int32.toInt_inj.1 hmax]

/-! ## A recorded capacity stays -/

/-- The capacity recorded under `key` stays. -/
def Keeps (key : Nat) (x y : TinyLlmExecutor η) : Prop :=
  ∀ capacity, x.allocated[key]? = some capacity → y.allocated[key]? = some capacity

theorem Keeps.refl (key : Nat) (x : TinyLlmExecutor η) : Keeps key x x := fun _ h => h

theorem Keeps.trans {key : Nat} (h : Keeps key x y) (h' : Keeps key y z) : Keeps key x z :=
  fun capacity hx => h' capacity (h capacity hx)

theorem ensureAllocated_keeps {reply : Except EngineError Unit} (key : Nat)
    (h : x.ensureAllocated mode symbols seqId contextLen = some (reply, y)) : Keeps key x y := by
  rw [ensureAllocated] at h
  split at h
  next => cases h; exact Keeps.refl key _
  next hnew =>
    obtain ⟨tokens, -, h⟩ := Option.map_eq_some_iff.1 h
    dsimp only at h
    split at h
    next => cases h; exact Keeps.refl key x
    next =>
      cases h
      intro capacity hcapacity
      have hne : asU32 seqId ≠ key := by
        rintro rfl
        exact hnew (IdMap.contains_eq_true_iff.2 ⟨capacity, hcapacity⟩)
      exact (IdMap.get_insert_ne hne).trans hcapacity

theorem admitRow_keeps {reply : Except EngineError Unit} (key : Nat)
    (h : x.admitRow mode symbols seqId contextLen = some (reply, y)) : Keeps key x y := by
  rw [admitRow] at h
  split at h
  next => cases h
  next heq => cases h; exact ensureAllocated_keeps key heq
  next heq =>
    refine (ensureAllocated_keeps key heq).trans ?_
    split at h
    next => cases h; exact Keeps.refl key _
    next =>
      obtain ⟨next, -, h⟩ := Option.map_eq_some_iff.1 h
      cases h
      exact Keeps.refl key _

theorem admitRows_keeps {rows : List (SeqId × Nat)} {reply : Except EngineError Unit} (key : Nat)
    (h : admitRows mode symbols rows x = some (reply, y)) : Keeps key x y := by
  induction rows generalizing x with
  | nil => cases h; exact Keeps.refl key _
  | cons row rest ih =>
    rw [admitRows] at h
    split at h
    next heq => exact (admitRow_keeps key heq).trans (ih h)
    next => exact admitRow_keeps key h

theorem execute_keeps {batch : ExecutionBatch} {reply : Except EngineError ExecutionOutput}
    (key : Nat) (h : x.execute mode symbols batch = some (reply, y)) : Keeps key x y := by
  unfold execute at h
  dsimp only at h
  split at h
  next => cases h; exact Keeps.refl key _
  next =>
    split at h
    next => cases h; exact Keeps.refl key _
    next =>
      split at h
      next => cases h
      next heq => cases h; exact admitRows_keeps key heq
      next heq =>
        refine (admitRows_keeps key heq).trans ?_
        split at h
        next => cases h; exact Keeps.refl key _
        next => split at h <;> · cases h; exact Keeps.refl key _

theorem finishOne_keeps {key : Nat} (hne : asU32 seqId ≠ key) (x : TinyLlmExecutor η) :
    Keeps key x (x.finishOne symbols seqId) := by
  intro capacity hcapacity
  rw [finishOne]
  split
  next => exact (IdMap.get_erase_ne hne).trans hcapacity
  next => exact hcapacity

theorem sequencesFinished_keeps {key : Nat} {seqIds : List SeqId}
    (hne : ∀ id ∈ seqIds, asU32 id ≠ key) (x : TinyLlmExecutor η) :
    Keeps key x (x.sequencesFinished symbols seqIds) := by
  induction seqIds generalizing x with
  | nil => exact Keeps.refl key x
  | cons id rest ih =>
    exact (finishOne_keeps (hne id (by simp)) x).trans
      (ih (fun id' h => hne id' (by simp [h])) (x.finishOne symbols id))

/-! ## A whole generation -/

/-- Calls of the executor while a sequence is unfinished: any batches, and the end of other
sequences. -/
inductive Proceeds (mode : OverflowMode) (symbols : TinyLlmSymbols η) (seqId : SeqId) :
    TinyLlmExecutor η → TinyLlmExecutor η → Prop where
  | refl (x : TinyLlmExecutor η) : Proceeds mode symbols seqId x x
  | execute {x y z : TinyLlmExecutor η} {batch : ExecutionBatch}
      {reply : Except EngineError ExecutionOutput} (h : Proceeds mode symbols seqId x y)
      (hexecute : y.execute mode symbols batch = some (reply, z)) :
      Proceeds mode symbols seqId x z
  | finished {x y : TinyLlmExecutor η} {seqIds : List SeqId}
      (h : Proceeds mode symbols seqId x y) (hne : ∀ id ∈ seqIds, asU32 id ≠ asU32 seqId) :
      Proceeds mode symbols seqId x (y.sequencesFinished symbols seqIds)

theorem Proceeds.keeps (h : Proceeds mode symbols seqId x y) : Keeps (asU32 seqId) x y := by
  induction h with
  | refl => exact Keeps.refl _ _
  | execute _ hexecute ih => exact ih.trans (execute_keeps _ hexecute)
  | finished _ hne ih => exact ih.trans (sequencesFinished_keeps hne _)

/-- A sequence that first appears with `contextLen` tokens is let through at each of its next
`generated` lengths, whatever else the executor is called with. -/
def Serves (mode : OverflowMode) (symbols : TinyLlmSymbols η) (x : TinyLlmExecutor η)
    (seqId : SeqId) (contextLen generated : Nat) : Prop :=
  ∃ x', x.ensureAllocated mode symbols seqId contextLen = some (.ok (), x') ∧
    ∀ y, Proceeds mode symbols seqId x' y → ∀ n < generated,
      y.admitRow mode symbols seqId (contextLen + n) = some (.ok (), y)

theorem ensureAllocated_of_new {capacity : Int32} (hgrants : symbols.Grants)
    (hnew : x.allocated[asU32 seqId]? = none)
    (halloc : allocTokensFor mode contextLen x.decodeReserve = some capacity) :
    ∃ x', x.ensureAllocated mode symbols seqId contextLen = some (.ok (), x') ∧
      x'.allocated[asU32 seqId]? = some capacity := by
  have hrc := hgrants x.handle (Int32.ofNat seqId) capacity
  refine ⟨⟨(symbols.allocateSequence x.handle (Int32.ofNat seqId) capacity).2,
    x.allocated.insert (asU32 seqId) capacity, x.paged, x.maxBatchSize, x.decodeReserve⟩, ?_, ?_⟩
  · simp [ensureAllocated, IdMap.contains_eq_false_iff.2 hnew, halloc, hrc]
  · simp

/-- The verdict on a sequence that has been seen before. -/
theorem admitRow_of_known {capacity : Int32}
    (h : x.allocated[asU32 seqId]? = some capacity) :
    x.admitRow mode symbols seqId contextLen =
      (add mode (Int32.ofNat contextLen) 1).map fun next =>
        (if next > capacity then .error (overCapacity seqId x.decodeReserve capacity)
          else .ok (), x) := by
  have hensure : x.ensureAllocated mode symbols seqId contextLen = some (.ok (), x) := by
    rw [ensureAllocated, if_pos (IdMap.contains_eq_true_iff.2 ⟨capacity, h⟩)]
  simp only [admitRow, hensure, h]

theorem admitRow_of_le {capacity : Int32} (h : x.allocated[asU32 seqId]? = some capacity)
    (hle : contextLen + 1 ≤ capacity.toInt) :
    x.admitRow mode symbols seqId contextLen = some (.ok (), x) := by
  have hlt := capacity.toInt_lt
  have hlen : (Int32.ofNat contextLen).toInt = contextLen := Int32.toInt_ofNat_of_lt (by omega)
  have hone : (1 : Int32).toInt = 1 := rfl
  rw [admitRow_of_known h, add_of_lt (by omega) (by omega), Option.map_some, if_neg]
  rw [gt_iff_lt, Int32.lt_iff_toInt_lt, toInt_add_of_lt (by omega) (by omega)]
  omega

theorem admitRow_of_lt {capacity : Int32} (h : x.allocated[asU32 seqId]? = some capacity)
    (hlt : capacity.toInt < contextLen + 1) (hlen : contextLen + 1 < 2 ^ 31) :
    x.admitRow mode symbols seqId contextLen =
      some (.error (overCapacity seqId x.decodeReserve capacity), x) := by
  have hctx : (Int32.ofNat contextLen).toInt = contextLen := Int32.toInt_ofNat_of_lt (by omega)
  have hone : (1 : Int32).toInt = 1 := rfl
  rw [admitRow_of_known h, add_of_lt (by omega) (by omega), Option.map_some, if_pos]
  rw [gt_iff_lt, Int32.lt_iff_toInt_lt, toInt_add_of_lt (by omega) (by omega)]
  omega

/-- With a capacity that covers the reserve, the sequence is served. -/
theorem serves_of_capacity {capacity : Int32} (hgrants : symbols.Grants)
    (hnew : x.allocated[asU32 seqId]? = none)
    (halloc : allocTokensFor mode contextLen x.decodeReserve = some capacity)
    (hle : contextLen + generated ≤ capacity.toInt) :
    x.Serves mode symbols seqId contextLen generated := by
  obtain ⟨x', heq, hcapacity⟩ := ensureAllocated_of_new hgrants hnew halloc
  refine ⟨x', heq, ?_⟩
  intro y hy n hn
  exact admitRow_of_le (hy.keeps capacity hcapacity) (by omega)

theorem decodeReserveOf_nonneg (env : String → Option String) :
    0 ≤ (decodeReserveOf env).toInt := by
  rw [decodeReserveOf, toInt_max]
  exact le_max_right _ _

/-- The reserve is honoured exactly when prompt and reserve add up inside the `i32` range. -/
theorem serves_iff (symbols : TinyLlmSymbols η) (x : TinyLlmExecutor η) (seqId : SeqId)
    (env : String → Option String) (config : EngineConfig) (contextLen generated : Nat)
    (hgrants : symbols.Grants) (hreserve : x.decodeReserve = decodeReserveOf env)
    (hnew : x.allocated[asU32 seqId]? = none) (hmax : config.maxModelLen.toNat < 2 ^ 31)
    (hlen : contextLen ≤ config.maxModelLen.toNat)
    (hgenerated : generated ≤ x.decodeReserve.toInt) :
    (∀ mode, x.Serves mode symbols seqId contextLen generated) ↔
      contextLen + x.decodeReserve.toInt < 2 ^ 31 := by
  have hnonneg : 0 ≤ x.decodeReserve.toInt := hreserve ▸ decodeReserveOf_nonneg env
  constructor
  · intro h
    by_contra hover
    obtain ⟨x', heq, -⟩ := h .checked
    have halloc : allocTokensFor .checked contextLen x.decodeReserve = none :=
      allocTokensFor_checked_of_le (by omega) (by omega)
    simp [ensureAllocated, IdMap.contains_eq_false_iff.2 hnew, halloc] at heq
  · intro hlt mode
    obtain ⟨capacity, halloc, hcapacity⟩ :=
      (allocTokensFor_of_lt hnonneg hlt : ∃ capacity, allocTokensFor mode _ _ = some capacity ∧ _)
    exact serves_of_capacity hgrants hnew halloc (by omega)

/-- In a build that wraps, what is left above the range is the lower limit of 64 tokens. -/
theorem serves_wrapping_iff (hgrants : symbols.Grants)
    (hnew : x.allocated[asU32 seqId]? = none) (hlen : contextLen + generated < 2 ^ 31)
    (hover : 2 ^ 31 ≤ contextLen + x.decodeReserve.toInt) :
    x.Serves .wrapping symbols seqId contextLen generated ↔
      generated = 0 ∨ contextLen + generated ≤ 64 := by
  have halloc := allocTokensFor_wrapping_of_le (by omega : contextLen < 2 ^ 31) hover
  have hlimit : (64 : Int32).toInt = 64 := rfl
  obtain ⟨x', heq, hcapacity⟩ := ensureAllocated_of_new hgrants hnew halloc
  constructor
  · rintro ⟨x'', heq', hserves⟩
    rw [heq] at heq'
    cases heq'
    by_contra hnot
    rw [not_or, Nat.not_le] at hnot
    have hlast := hserves x' (Proceeds.refl x') (generated - 1) (by omega)
    rw [admitRow_of_lt hcapacity (by omega) (by omega)] at hlast
    simp at hlast
  · rintro (rfl | hle)
    · exact ⟨x', heq, fun _ _ n hn => absurd hn (Nat.not_lt_zero n)⟩
    · exact serves_of_capacity hgrants hnew halloc (by omega)

/-! ## The largest reserve -/

/-- A library that grants everything and answers every step with no tokens. -/
def grantingSymbols : TinyLlmSymbols Unit where
  load _ _ := .ok ()
  allocateSequence _ _ _ := (0, ())
  freeSequence _ _ := (0, ())
  step _ _ := (0, [], ())

/-- The decode reserve set to `value`, all other variables unset. -/
def reserveEnv (value : String) (name : String) : Option String :=
  if name = "PAGED_SERVING_TINY_LLM_DECODE_RESERVE" then some value else none

def reserveExecutor (value : String) : TinyLlmExecutor Unit :=
  ⟨(), ∅, true, 4, decodeReserveOf (reserveEnv value)⟩

theorem serves_iff_small :
    (∀ mode, (reserveExecutor "512").Serves mode grantingSymbols 1 100 512) ↔
      (100 : Nat) + (reserveExecutor "512").decodeReserve.toInt < 2 ^ 31 :=
  serves_iff grantingSymbols (reserveExecutor "512") 1 (reserveEnv "512") {} 100 512
    (fun _ _ _ => rfl) rfl (by simp [reserveExecutor]) (by decide) (by decide)
    (by decide +kernel)

/-- A prompt of 100 tokens with the largest reserve: a checked build stops, and a wrapping
one refuses the first token. -/
theorem not_serves_largest :
    (TinyLlmExecutor.new grantingSymbols (reserveEnv "2147483647") "model" {}).toOption =
        some (reserveExecutor "2147483647") ∧
      (reserveExecutor "2147483647").ensureAllocated .checked grantingSymbols 1 100 = none ∧
      ¬ (reserveExecutor "2147483647").Serves .wrapping grantingSymbols 1 100 1 ∧
      ¬ ∀ mode, (reserveExecutor "2147483647").Serves mode grantingSymbols 1 100 1 := by
  have hreserve : (reserveExecutor "2147483647").decodeReserve = 2147483647 := by decide +kernel
  have hnew : (reserveExecutor "2147483647").allocated[asU32 1]? = none := by
    simp [reserveExecutor]
  have hwrapping :
      ¬ (reserveExecutor "2147483647").Serves .wrapping grantingSymbols 1 100 1 := by
    rw [serves_wrapping_iff (fun _ _ _ => rfl) hnew (by decide) (by rw [hreserve]; decide)]
    decide
  refine ⟨?_, ?_, hwrapping, fun h => hwrapping (h .wrapping)⟩
  · rfl
  · have halloc : allocTokensFor .checked 100 (reserveExecutor "2147483647").decodeReserve = none := by
      rw [hreserve]
      decide
    simp [ensureAllocated, IdMap.contains_eq_false_iff.2 hnew, halloc]

end TinyLlmExecutor

end PagedServing
