import PagedServing.Engine.Trace
import PagedServing.Executor.Capacity

/-! # Calls through the C interface

`src/tiny_llm_ffi.rs`: what the library asks of its caller. A sequence is reserved once, used while
its reservation stands and freed once; the arrays of a step agree in length, and what they index
lies within the reservations and the pool. The executor keeps to this in a build that wraps.
-/

namespace PagedServing

open FixedWidth SignedWord

/-! ## The log and what it has to satisfy -/

/-- One call of the library, with its status. -/
inductive ForeignCall where
  | load (config : TinyLlmConfig)
  | allocateSequence (seqId numTokens rc : Int32)
  | step (args : TinyLlmStep) (rc : Int32)
  | freeSequence (seqId rc : Int32)

/-- The library together with the calls it has got. -/
def TinyLlmSymbols.logged {η : Type} (symbols : TinyLlmSymbols η) :
    TinyLlmSymbols (η × List ForeignCall) where
  load modelPath config := (symbols.load modelPath config).map (·, [.load config])
  allocateSequence h seqId numTokens :=
    let (rc, handle) := symbols.allocateSequence h.1 seqId numTokens
    (rc, handle, h.2 ++ [.allocateSequence seqId numTokens rc])
  freeSequence h seqId :=
    let (rc, handle) := symbols.freeSequence h.1 seqId
    (rc, handle, h.2 ++ [.freeSequence seqId rc])
  step h args :=
    let (rc, nextTokens, handle) := symbols.step h.1 args
    (rc, nextTokens, handle, h.2 ++ [.step args rc])

section Logged

variable {η : Type} (symbols : TinyLlmSymbols η) (h : η × List ForeignCall)

theorem logged_allocateSequence (seqId numTokens : Int32) :
    symbols.logged.allocateSequence h seqId numTokens =
      ((symbols.allocateSequence h.1 seqId numTokens).1,
        (symbols.allocateSequence h.1 seqId numTokens).2,
        h.2 ++ [.allocateSequence seqId numTokens
          (symbols.allocateSequence h.1 seqId numTokens).1]) := rfl

theorem logged_freeSequence (seqId : Int32) :
    symbols.logged.freeSequence h seqId =
      ((symbols.freeSequence h.1 seqId).1, (symbols.freeSequence h.1 seqId).2,
        h.2 ++ [.freeSequence seqId (symbols.freeSequence h.1 seqId).1]) := rfl

theorem logged_step (args : TinyLlmStep) :
    symbols.logged.step h args =
      ((symbols.step h.1 args).1, (symbols.step h.1 args).2.1, (symbols.step h.1 args).2.2,
        h.2 ++ [.step args (symbols.step h.1 args).1]) := rfl

end Logged

/-- The positions of each sequence of a step. -/
def cutPositions : List Int32 → List Int32 → List Int32 → List (Int32 × List Int32)
  | seqId :: seqIds, seqLen :: seqLens, positions =>
      (seqId, positions.take seqLen.toInt.toNat) ::
        cutPositions seqIds seqLens (positions.drop seqLen.toInt.toNat)
  | _, _, _ => []

/-- What the library can rely on in a step, given its configuration and the tokens reserved for
each sequence. -/
structure TinyLlmStep.Meets (args : TinyLlmStep) (config : TinyLlmConfig)
    (reserved : Int32 → Option Int32) : Prop where
  seqIds : args.seqIds.Nodup
  batchSize : args.seqIds.length ≤ config.maxBatchSize.toInt
  isPrefill : args.isPrefill.length = args.seqIds.length
  seqLens : args.seqLens.length = args.seqIds.length
  inputTokens : args.inputTokens.length = (args.seqLens.map (·.toInt)).sum
  positions : args.positions.length = (args.seqLens.map (·.toInt)).sum
  within : ∀ row ∈ cutPositions args.seqIds args.seqLens args.positions,
    ∃ capacity, reserved row.1 = some capacity ∧
      ∀ pos ∈ row.2, 0 ≤ pos.toInt ∧ pos.toInt < capacity.toInt
  tables : ∀ tables ∈ args.blockTables, tables.2.length = args.seqIds.length ∧
    tables.1.length = (tables.2.map (·.toInt)).sum ∧ (∀ n ∈ tables.2, 0 < n.toInt) ∧
    ∀ blockIdx ∈ tables.1, 0 ≤ blockIdx.toInt ∧ blockIdx.toInt < config.maxNumBlocks.toInt

/-- What the calls so far have left in the library. -/
structure Reservations where
  config : Option TinyLlmConfig := none
  reserved : Int32 → Option Int32 := fun _ => none
  freed : List Int32 := []

namespace Reservations

def after (r : Reservations) : ForeignCall → Reservations
  | .load config => { r with config := some config }
  | .allocateSequence seqId numTokens rc =>
      if rc = 0 then { r with reserved := Function.update r.reserved seqId (some numTokens) } else r
  | .step _ _ => r
  | .freeSequence seqId _ =>
      { r with
        reserved := Function.update r.reserved seqId none
        freed := r.freed ++ [seqId] }

def Allows (r : Reservations) : ForeignCall → Prop
  | .load _ => r.config = none
  | .allocateSequence seqId numTokens _ =>
      r.config.isSome ∧ r.reserved seqId = none ∧ seqId ∉ r.freed ∧ 0 < numTokens.toInt
  | .step args _ => ∃ config, r.config = some config ∧ args.Meets config r.reserved
  | .freeSequence seqId _ => (r.reserved seqId).isSome

def AllowsAll : Reservations → List ForeignCall → Prop
  | _, [] => True
  | r, call :: rest => r.Allows call ∧ (r.after call).AllowsAll rest

theorem allowsAll_append {r : Reservations} {calls more : List ForeignCall} :
    r.AllowsAll (calls ++ more) ↔ r.AllowsAll calls ∧ (calls.foldl after r).AllowsAll more := by
  induction calls generalizing r with
  | nil => simp [AllowsAll]
  | cons call rest ih => rw [List.cons_append, AllowsAll, AllowsAll, ih, and_assoc, List.foldl_cons]

theorem allowsAll_concat {r : Reservations} {calls : List ForeignCall} {call : ForeignCall} :
    r.AllowsAll (calls ++ [call]) ↔ r.AllowsAll calls ∧ (calls.foldl after r).Allows call := by
  rw [allowsAll_append, AllowsAll, AllowsAll, and_true]

end Reservations

/-! ## Batches that the casts leave alone -/

/-- The casts to `c_int` keep the limits. -/
structure EngineConfig.FitsCInt (config : EngineConfig) : Prop where
  maxBatchSize : config.maxBatchSize.toNat < 2 ^ 31
  maxNumBlocks : config.maxNumBlocks.toNat < 2 ^ 31
  maxModelLen : config.maxModelLen.toNat + 1 < 2 ^ 31

/-- An entry whose numbers stay what they are when they become `c_int`. -/
structure BatchEntry.Portable (entry : BatchEntry) (config : EngineConfig) : Prop where
  contextLen : entry.contextLen + 1 < 2 ^ 31
  tokens : entry.tokens.length ≤ entry.contextLen
  positions : ∀ pos ∈ entry.positions, pos < entry.contextLen
  table : entry.blockTable ≠ []
  tableSize : entry.blockTable.length < 2 ^ 31
  blocks : ∀ blockIdx ∈ entry.blockTable, blockIdx < config.maxNumBlocks.toNat

structure ExecutionBatch.Portable (b : ExecutionBatch) (config : EngineConfig) : Prop where
  cut : b.Cut
  nodup : b.seqIds.Nodup
  entries : ∀ entry ∈ b.entries, entry.Portable config

theorem ofNat_inj {m n : Nat} : Int32.ofNat m = Int32.ofNat n ↔ asU32 m = asU32 n := by
  rw [← Int32.toBitVec_inj, ← BitVec.toNat_inj]
  simp [asU32]

theorem ofNat_inj_of_lt {m n : Nat} (hm : m < 2 ^ 32) (hn : n < 2 ^ 32) :
    Int32.ofNat m = Int32.ofNat n ↔ m = n := by
  rw [ofNat_inj, asU32_of_lt hm, asU32_of_lt hn]

theorem toInt_toInt32 {n : UInt32} (h : n.toNat < 2 ^ 31) : n.toInt32.toInt = n.toNat := by
  have heq : n.toInt32 = Int32.ofNat n.toNat := by
    rw [← Int32.toBitVec_inj]
    simp
  rw [heq, Int32.toInt_ofNat_of_lt h]

theorem sum_map_ofNat {lens : List Nat} (h : ∀ n ∈ lens, n < 2 ^ 31) :
    ((lens.map Int32.ofNat).map (·.toInt)).sum = lens.sum := by
  induction lens with
  | nil => rfl
  | cons n rest ih =>
    have hn : (Int32.ofNat n).toInt = n := Int32.toInt_ofNat_of_lt (h n List.mem_cons_self)
    rw [List.map_cons, List.map_cons, List.sum_cons, List.sum_cons, hn,
      ih fun m hm => h m (List.mem_cons_of_mem n hm), Nat.cast_add]

theorem cutPositions_map {ids : List SeqId} {flags : List Bool} {lens ctxs : List Nat}
    {tables : List (List BlockIdx)} {positions : List Nat} (tokens : List TokenId)
    (hflags : flags.length = ids.length) (hlens : lens.length = ids.length)
    (hctxs : ctxs.length = ids.length) (htables : tables.length = ids.length)
    (h : ∀ n ∈ lens, n < 2 ^ 31) :
    cutPositions (ids.map Int32.ofNat) (lens.map Int32.ofNat) (positions.map Int32.ofNat) =
      (entriesFrom ids flags lens ctxs tables tokens positions).map fun entry =>
        (Int32.ofNat entry.seqId, entry.positions.map Int32.ofNat) := by
  induction ids generalizing flags lens ctxs tables tokens positions with
  | nil => simp [cutPositions, entriesFrom]
  | cons id ids ih =>
    obtain ⟨flag, flags, rfl⟩ := List.exists_cons_of_length_eq_add_one hflags
    obtain ⟨len, lens, rfl⟩ := List.exists_cons_of_length_eq_add_one hlens
    obtain ⟨ctx, ctxs, rfl⟩ := List.exists_cons_of_length_eq_add_one hctxs
    obtain ⟨table, tables, rfl⟩ := List.exists_cons_of_length_eq_add_one htables
    have hlen : (Int32.ofNat len).toInt.toNat = len := by
      rw [Int32.toInt_ofNat_of_lt (h len List.mem_cons_self), Int.toNat_natCast]
    simp only [List.length_cons, Nat.add_right_cancel_iff] at hflags hlens hctxs htables
    simp only [List.map_cons, cutPositions, entriesFrom, hlen, ← List.map_take, ← List.map_drop]
    rw [ih (tokens.drop len) hflags hlens hctxs htables fun n hn =>
      h n (List.mem_cons_of_mem len hn)]

/-- The columns of a batch, read off its entries. -/
theorem entriesFrom_columns {ids : List SeqId} {flags : List Bool} {lens ctxs : List Nat}
    {tables : List (List BlockIdx)} {tokens : List TokenId} {positions : List Nat}
    (hflags : flags.length = ids.length) (hlens : lens.length = ids.length)
    (hctxs : ctxs.length = ids.length) (htables : tables.length = ids.length)
    (htokens : tokens.length = lens.sum) :
    (entriesFrom ids flags lens ctxs tables tokens positions).map (·.seqId) = ids ∧
      (entriesFrom ids flags lens ctxs tables tokens positions).map (·.tokens.length) = lens ∧
      (entriesFrom ids flags lens ctxs tables tokens positions).map (·.contextLen) = ctxs ∧
      (entriesFrom ids flags lens ctxs tables tokens positions).map (·.blockTable) = tables := by
  induction ids generalizing flags lens ctxs tables tokens positions with
  | nil =>
    obtain rfl := List.length_eq_zero_iff.1 hlens
    obtain rfl := List.length_eq_zero_iff.1 hctxs
    obtain rfl := List.length_eq_zero_iff.1 htables
    simp [entriesFrom]
  | cons id ids ih =>
    obtain ⟨flag, flags, rfl⟩ := List.exists_cons_of_length_eq_add_one hflags
    obtain ⟨len, lens, rfl⟩ := List.exists_cons_of_length_eq_add_one hlens
    obtain ⟨ctx, ctxs, rfl⟩ := List.exists_cons_of_length_eq_add_one hctxs
    obtain ⟨table, tables, rfl⟩ := List.exists_cons_of_length_eq_add_one htables
    simp only [List.length_cons, Nat.add_right_cancel_iff] at hflags hlens hctxs htables
    rw [List.sum_cons] at htokens
    have hdrop : (tokens.drop len).length = lens.sum := by
      rw [List.length_drop]
      omega
    obtain ⟨hids, hlengths, hcontexts, hblocks⟩ :=
      @ih flags lens ctxs tables (tokens.drop len) (positions.drop len) hflags hlens hctxs htables
        hdrop
    have hfirst : (tokens.take len).length = len := by
      rw [List.length_take]
      omega
    simp only [entriesFrom, List.map_cons, hids, hlengths, hcontexts, hblocks, hfirst, and_self]

namespace ExecutionBatch

variable {b : ExecutionBatch} {config : EngineConfig}

theorem Cut.columns (h : b.Cut) : b.entries.map (·.seqId) = b.seqIds ∧
    b.entries.map (·.tokens.length) = b.seqLens ∧ b.entries.map (·.contextLen) = b.contextLens ∧
    b.entries.map (·.blockTable) = b.blockTables :=
  entriesFrom_columns h.isPrefill h.seqLens h.contextLens h.blockTables h.tokens

theorem Portable.seqLens (h : b.Portable config) : ∀ n ∈ b.seqLens, n < 2 ^ 31 := by
  rw [← h.cut.columns.2.1]
  refine List.forall_mem_map.2 fun entry hentry => ?_
  have htokens := (h.entries entry hentry).tokens
  have hctx := (h.entries entry hentry).contextLen
  omega

/-- A sequence of the batch with its context. -/
theorem Cut.mem_contexts (h : b.Cut) {entry : BatchEntry} (hentry : entry ∈ b.entries) :
    (entry.seqId, entry.contextLen) ∈ b.seqIds.zip b.contextLens := by
  rw [← h.columns.1, ← h.columns.2.2.1, List.zip_map']
  exact List.mem_map_of_mem hentry

theorem Cut.mem_table (h : b.Cut) {blockTable : List BlockIdx}
    (htable : blockTable ∈ b.blockTables) :
    ∃ entry ∈ b.entries, entry.blockTable = blockTable := by
  rw [← h.columns.2.2.2] at htable
  exact List.mem_map.1 htable

end ExecutionBatch

/-! ## The executor -/

namespace TinyLlmExecutor

variable {η : Type} {symbols : TinyLlmSymbols η} {config : EngineConfig} {c : TinyLlmConfig}
  {sent finished : List SeqId} {x y : TinyLlmExecutor (η × List ForeignCall)} {seqId : SeqId}
  {contextLen : Nat}

def foreignCalls (x : TinyLlmExecutor (η × List ForeignCall)) : List ForeignCall := x.handle.2

def reservations (x : TinyLlmExecutor (η × List ForeignCall)) : Reservations :=
  x.foreignCalls.foldl Reservations.after {}

/-- What the library has been asked for is in order, and the executor knows what it holds: it is
reserved for sequences that have been sent and have not finished. -/
structure Accounts (config : EngineConfig) (c : TinyLlmConfig) (sent finished : List SeqId)
    (x : TinyLlmExecutor (η × List ForeignCall)) : Prop where
  allowed : ({} : Reservations).AllowsAll x.foreignCalls
  loaded : x.reservations.config = some c
  maxBatchSize : x.maxBatchSize = c.maxBatchSize
  nonneg : 0 ≤ c.maxBatchSize.toInt
  pool : x.paged = true → c.maxNumBlocks.toInt = config.maxNumBlocks.toNat
  reserved : ∀ n : Nat, x.reservations.reserved (Int32.ofNat n) = x.allocated[asU32 n]?
  freed : ∀ id ∈ x.reservations.freed, ∃ n ∈ finished, Int32.ofNat n = id
  running : ∀ id, x.reservations.reserved id ≠ none →
    ∃ n ∈ sent, n ∉ finished ∧ Int32.ofNat n = id

theorem reservations_concat {call : ForeignCall}
    (h : y.foreignCalls = x.foreignCalls ++ [call]) :
    y.reservations = x.reservations.after call := by
  rw [reservations, h, List.foldl_append]
  rfl

/-- A call that does not touch the reservations. -/
theorem Accounts.concat (h : x.Accounts config c sent finished) {call : ForeignCall} {handle : η}
    (hallows : x.reservations.Allows call) (hsame : x.reservations.after call = x.reservations) :
    { x with handle := (handle, x.handle.2 ++ [call]) }.Accounts config c sent finished := by
  have hreservations :
      { x with handle := (handle, x.handle.2 ++ [call]) }.reservations = x.reservations :=
    (reservations_concat rfl).trans hsame
  refine ⟨Reservations.allowsAll_concat.2 ⟨h.allowed, hallows⟩, ?_, h.maxBatchSize, h.nonneg,
    h.pool, ?_, ?_, ?_⟩
  · rw [hreservations]
    exact h.loaded
  · rw [hreservations]
    exact h.reserved
  · rw [hreservations]
    exact h.freed
  · rw [hreservations]
    exact h.running

theorem Accounts.unreserved (h : x.Accounts config c sent finished)
    (hfin : ∀ n ∈ finished, n < 2 ^ 32) (hid : seqId < 2 ^ 32) (hno : seqId ∉ finished) :
    Int32.ofNat seqId ∉ x.reservations.freed := by
  intro hmem
  obtain ⟨n, hn, heq⟩ := h.freed _ hmem
  rw [ofNat_inj_of_lt (hfin n hn) hid] at heq
  exact hno (heq ▸ hn)

theorem allocTokensFor_wrapping (contextLen : Nat) (reserve : Int32) :
    ∃ tokens, allocTokensFor .wrapping contextLen reserve = some tokens ∧ 0 < tokens.toInt := by
  refine ⟨max (Int32.ofNat contextLen + reserve) 64, by rw [allocTokensFor, add_wrapping]; rfl, ?_⟩
  rw [toInt_max]
  exact lt_max_of_lt_right (by decide)

/-- A sequence that is new to the library is reserved, or the library refuses. -/
theorem Accounts.ensureAllocated (h : x.Accounts config c sent finished)
    (symbols : TinyLlmSymbols η) (contextLen : Nat) (hfin : ∀ n ∈ finished, n < 2 ^ 32)
    (hid : seqId < 2 ^ 32) (hno : seqId ∉ finished)
    (hsent : seqId ∈ sent) :
    ∃ reply y, x.ensureAllocated .wrapping symbols.logged seqId contextLen = some (reply, y) ∧
      y.Accounts config c sent finished ∧
      (reply = .ok () → ∃ capacity, y.allocated[asU32 seqId]? = some capacity) := by
  rw [TinyLlmExecutor.ensureAllocated]
  split
  next hknown => exact ⟨_, _, rfl, h, fun _ => IdMap.contains_eq_true_iff.1 hknown⟩
  next hnew =>
    have hnone : x.allocated[asU32 seqId]? = none :=
      IdMap.contains_eq_false_iff.1 (Bool.eq_false_iff.2 hnew)
    obtain ⟨tokens, htokens, hpos⟩ := allocTokensFor_wrapping contextLen x.decodeReserve
    have hallows (rc : Int32) :
        x.reservations.Allows (.allocateSequence (Int32.ofNat seqId) tokens rc) :=
      ⟨by rw [h.loaded]; rfl, (h.reserved seqId).trans hnone, h.unreserved hfin hid hno, hpos⟩
    rw [htokens, Option.map_some]
    rcases hcall : symbols.logged.allocateSequence x.handle (Int32.ofNat seqId) tokens with
      ⟨rc, handle, log⟩
    obtain rfl : log = x.handle.2 ++ [.allocateSequence (Int32.ofNat seqId) tokens rc] := by
      rw [logged_allocateSequence, Prod.mk.injEq, Prod.mk.injEq] at hcall
      rw [← hcall.2.2, hcall.1]
    simp only [hcall]
    by_cases hrc : rc = 0
    · rw [if_neg (not_not.2 hrc)]
      refine ⟨_, _, rfl, ?_, fun _ => ⟨tokens, by simp⟩⟩
      have hreservations : reservations { x with
          handle := (handle, x.handle.2 ++ [.allocateSequence (Int32.ofNat seqId) tokens rc])
          allocated := x.allocated.insert (asU32 seqId) tokens } = ⟨x.reservations.config,
            Function.update x.reservations.reserved (Int32.ofNat seqId) (some tokens),
            x.reservations.freed⟩ := by
        rw [reservations_concat rfl, Reservations.after, if_pos hrc]
      refine ⟨Reservations.allowsAll_concat.2 ⟨h.allowed, hallows rc⟩, ?_, h.maxBatchSize, h.nonneg,
        h.pool, fun n => ?_, ?_, fun id hreserved => ?_⟩
      · rw [hreservations]
        exact h.loaded
      · rw [hreservations, IdMap.get_insert]
        dsimp only
        by_cases heq : asU32 seqId = asU32 n
        · rw [if_pos heq, ← ofNat_inj.2 heq, Function.update_self]
        · rw [if_neg heq, Function.update_of_ne fun hn => heq (ofNat_inj.1 hn.symm), h.reserved]
      · rw [hreservations]
        exact h.freed
      · rw [hreservations] at hreserved
        dsimp only at hreserved
        by_cases heq : id = Int32.ofNat seqId
        · exact ⟨seqId, hsent, hno, heq.symm⟩
        · rw [Function.update_of_ne heq] at hreserved
          exact h.running id hreserved
    · rw [if_pos hrc]
      exact ⟨_, _, rfl, h.concat (hallows rc) (if_neg hrc), fun hok => by cases hok⟩

theorem Accounts.admitRow (h : x.Accounts config c sent finished)
    (symbols : TinyLlmSymbols η) (contextLen : Nat) (hfin : ∀ n ∈ finished, n < 2 ^ 32)
    (hid : seqId < 2 ^ 32) (hno : seqId ∉ finished)
    (hsent : seqId ∈ sent) :
    ∃ reply y, x.admitRow .wrapping symbols.logged seqId contextLen = some (reply, y) ∧
      y.Accounts config c sent finished ∧
      (reply = .ok () → ∃ capacity, y.allocated[asU32 seqId]? = some capacity ∧
        Int32.ofNat contextLen + 1 ≤ capacity) := by
  obtain ⟨reply, y, heq, hy, hcapacity⟩ := h.ensureAllocated symbols contextLen hfin hid hno hsent
  rw [TinyLlmExecutor.admitRow, heq]
  cases reply with
  | error e => exact ⟨_, _, rfl, hy, fun hok => by cases hok⟩
  | ok u =>
      obtain ⟨capacity, hget⟩ := hcapacity rfl
      simp only [hget, add_wrapping, Option.map_some]
      refine ⟨_, _, rfl, hy, fun hok => ⟨capacity, hget, ?_⟩⟩
      split at hok
      next => cases hok
      next hle => exact Int32.not_lt.1 hle

theorem Accounts.admitRows (h : x.Accounts config c sent finished) (symbols : TinyLlmSymbols η)
    (hfin : ∀ n ∈ finished, n < 2 ^ 32) (rows : List (SeqId × Nat))
    (hrows : ∀ row ∈ rows, row.1 < 2 ^ 32 ∧ row.1 ∉ finished ∧ row.1 ∈ sent) :
    ∃ reply y, TinyLlmExecutor.admitRows .wrapping symbols.logged rows x = some (reply, y) ∧
      y.Accounts config c sent finished ∧ (reply = .ok () → ∀ row ∈ rows, ∃ capacity,
        y.allocated[asU32 row.1]? = some capacity ∧ Int32.ofNat row.2 + 1 ≤ capacity) := by
  induction rows generalizing x with
  | nil => exact ⟨_, _, rfl, h, fun _ row hrow => absurd hrow List.not_mem_nil⟩
  | cons row rest ih =>
    obtain ⟨hlt, hno, hsent⟩ := hrows row List.mem_cons_self
    obtain ⟨reply, y, heq, hy, hfirst⟩ := h.admitRow symbols row.2 hfin hlt hno hsent
    rw [TinyLlmExecutor.admitRows, heq]
    cases reply with
    | error e => exact ⟨_, _, rfl, hy, fun hok => by cases hok⟩
    | ok u =>
        obtain ⟨reply, z, hrest, hz, hothers⟩ :=
          ih hy fun row hrow => hrows row (List.mem_cons_of_mem _ hrow)
        refine ⟨reply, z, hrest, hz, fun hok => List.forall_mem_cons.2 ⟨?_, hothers hok⟩⟩
        obtain ⟨capacity, hget, hle⟩ := hfirst rfl
        exact ⟨capacity, admitRows_keeps _ hrest capacity hget, hle⟩

theorem zipIdx_getD {ids : List SeqId} {lens : List Nat} (h : lens.length = ids.length) :
    ids.zipIdx.map (fun p => (p.1, (lens[p.2]?).getD 0)) = ids.zip lens := by
  refine List.ext_getElem (by simp [h]) fun i hi hi' => ?_
  have hlt : i < lens.length := by
    rw [List.length_map, List.length_zipIdx] at hi
    omega
  simp [List.getElem?_eq_getElem hlt]

theorem nodup_map_ofNat {ids : List SeqId} (hnodup : ids.Nodup) (h : ∀ id ∈ ids, id < 2 ^ 32) :
    (ids.map Int32.ofNat).Nodup :=
  hnodup.map_on fun a ha b hb heq => (ofNat_inj_of_lt (h a ha) (h b hb)).1 heq

/-- What `execute` makes of a batch whose sequences are reserved with room for one token more. -/
theorem Accounts.meets (h : x.Accounts config c sent finished) {b : ExecutionBatch}
    (hb : b.Portable config) (hids : ∀ id ∈ b.seqIds, id < 2 ^ 32)
    (hsize : b.seqIds.length ≤ asUsize x.maxBatchSize)
    (hrows : ∀ row ∈ b.seqIds.zip b.contextLens, ∃ capacity,
      x.allocated[asU32 row.1]? = some capacity ∧ Int32.ofNat row.2 + 1 ≤ capacity)
    {args : TinyLlmStep} (hargs : x.stepOf b = .ok args) :
    args.Meets c x.reservations.reserved := by
  rw [stepOf] at hargs
  split at hargs
  next => cases hargs
  next =>
    cases hargs
    have hcut := hb.cut
    refine ⟨nodup_map_ofNat hb.nodup hids, ?_, ?_, ?_, ?_, ?_, ?_, ?_⟩
    · have hlt := c.maxBatchSize.toInt_lt
      have hnonneg := h.nonneg
      rw [h.maxBatchSize, asUsize, Int.emod_eq_of_lt h.nonneg (by omega)] at hsize
      rw [List.length_map]
      omega
    · rw [List.length_map, hcut.isPrefill]
    · rw [List.length_map, List.length_map, hcut.seqLens]
    · rw [List.length_map, hcut.tokens, sum_map_ofNat hb.seqLens]
    · rw [List.length_map, hcut.positions, sum_map_ofNat hb.seqLens]
    · rw [cutPositions_map b.inputTokens hcut.isPrefill hcut.seqLens hcut.contextLens
        hcut.blockTables hb.seqLens]
      intro row hrow
      obtain ⟨entry, hentry, rfl⟩ := List.mem_map.1 hrow
      obtain ⟨capacity, hcapacity, hle⟩ := hrows _ (hcut.mem_contexts hentry)
      replace hle : Int32.ofNat entry.contextLen + 1 ≤ capacity := hle
      refine ⟨capacity, (h.reserved entry.seqId).trans hcapacity, fun pos hpos => ?_⟩
      obtain ⟨n, hn, rfl⟩ := List.mem_map.1 hpos
      have hctx := (hb.entries entry hentry).contextLen
      have hlt := (hb.entries entry hentry).positions n hn
      have hlen : (Int32.ofNat entry.contextLen).toInt = entry.contextLen :=
        Int32.toInt_ofNat_of_lt (by omega)
      have hone : (1 : Int32).toInt = 1 := rfl
      rw [Int32.le_iff_toInt_le, toInt_add_of_lt (by omega) (by omega)] at hle
      rw [Int32.toInt_ofNat_of_lt (by omega)]
      omega
    · intro tables htables
      dsimp only at htables
      split at htables
      next hpaged =>
        obtain rfl := Option.some.inj htables
        have hlens : ∀ n ∈ b.blockTables.map List.length, n < 2 ^ 31 := by
          refine List.forall_mem_map.2 fun table htable => ?_
          obtain ⟨entry, hentry, rfl⟩ := hcut.mem_table htable
          exact (hb.entries entry hentry).tableSize
        refine ⟨?_, ?_, fun n hn => ?_, fun blockIdx hmem => ?_⟩
        · rw [List.length_map, List.length_map, hcut.blockTables]
        · rw [List.length_map, List.length_flatten, ← sum_map_ofNat hlens, List.map_map,
            List.map_map, List.map_map]
          rfl
        · obtain ⟨table, htable, rfl⟩ := List.mem_map.1 hn
          obtain ⟨entry, hentry, rfl⟩ := hcut.mem_table htable
          rw [Int32.toInt_ofNat_of_lt (hb.entries entry hentry).tableSize]
          exact Int.natCast_pos.2 (List.length_pos_of_ne_nil (hb.entries entry hentry).table)
        · obtain ⟨n, hn, rfl⟩ := List.mem_map.1 hmem
          obtain ⟨table, htable, hn⟩ := List.mem_flatten.1 hn
          obtain ⟨entry, hentry, rfl⟩ := hcut.mem_table htable
          have hlt : (n : Nat) < config.maxNumBlocks.toNat :=
            (hb.entries entry hentry).blocks n hn
          have hpool := h.pool hpaged
          have hmax := c.maxNumBlocks.toInt_lt
          rw [Int32.toInt_ofNat_of_lt (by omega), hpool]
          omega
      next => cases htables

theorem Accounts.later (h : x.Accounts config c sent finished) {sent' : List SeqId}
    (hsub : sent ⊆ sent') : x.Accounts config c sent' finished :=
  { h with
    running := fun id hid =>
      let ⟨n, hn, hrest⟩ := h.running id hid
      ⟨n, hsub hn, hrest⟩ }

theorem Accounts.execute (h : x.Accounts config c sent finished) (symbols : TinyLlmSymbols η)
    (hfin : ∀ n ∈ finished, n < 2 ^ 32) {b : ExecutionBatch} (hb : b.Portable config)
    (hids : ∀ id ∈ b.seqIds, id < 2 ^ 32 ∧ id ∉ finished) :
    ∃ reply y, x.execute .wrapping symbols.logged b = some (reply, y) ∧
      y.Accounts config c (sent ++ b.seqIds) finished := by
  replace h := h.later (List.subset_append_left sent b.seqIds)
  unfold TinyLlmExecutor.execute
  dsimp only
  split
  next => exact ⟨_, _, rfl, h⟩
  next =>
    split
    next => exact ⟨_, _, rfl, h⟩
    next hsize =>
      rw [zipIdx_getD hb.cut.contextLens]
      obtain ⟨reply, y, hrows, hy, hroom⟩ := h.admitRows symbols hfin
        (b.seqIds.zip b.contextLens) fun row hrow =>
          have hmem := (List.of_mem_zip hrow).1
          ⟨(hids _ hmem).1, (hids _ hmem).2, List.mem_append_right _ hmem⟩
      rw [hrows]
      cases reply with
      | error e => exact ⟨_, _, rfl, hy⟩
      | ok u =>
          cases hargs : y.stepOf b with
          | error e =>
              simp only [hargs]
              exact ⟨_, _, rfl, hy⟩
          | ok args =>
              rcases hcall : symbols.logged.step y.handle args with ⟨rc, nextTokens, handle, log⟩
              obtain rfl : log = y.handle.2 ++ [.step args rc] := by
                rw [logged_step, Prod.mk.injEq, Prod.mk.injEq, Prod.mk.injEq] at hcall
                rw [← hcall.2.2.2, hcall.1]
              have hsame : y.maxBatchSize = x.maxBatchSize :=
                hy.maxBatchSize.trans h.maxBatchSize.symm
              have hmeets := hy.meets hb (fun id hid => (hids id hid).1)
                (hsame ▸ Nat.not_lt.1 hsize) (hroom rfl) hargs
              have hallows : y.reservations.Allows (.step args rc) := ⟨c, hy.loaded, hmeets⟩
              simp only [hargs, hcall]
              by_cases hrc : rc ≠ 0
              · rw [if_pos hrc]
                exact ⟨_, _, rfl, hy.concat hallows rfl⟩
              · rw [if_neg hrc]
                exact ⟨_, _, rfl, hy.concat hallows rfl⟩

theorem Accounts.finishOne (h : x.Accounts config c sent finished) (symbols : TinyLlmSymbols η)
    (seqId : SeqId) :
    (x.finishOne symbols.logged seqId).Accounts config c sent (finished ++ [seqId]) := by
  have hfreed : ∀ id ∈ x.reservations.freed, ∃ n ∈ finished ++ [seqId], Int32.ofNat n = id := by
    intro id hid
    obtain ⟨n, hn, heq⟩ := h.freed id hid
    exact ⟨n, List.mem_append_left _ hn, heq⟩
  have hrunning : ∀ id, x.reservations.reserved id ≠ none → id ≠ Int32.ofNat seqId →
      ∃ n ∈ sent, n ∉ finished ++ [seqId] ∧ Int32.ofNat n = id := by
    intro id hid hne
    obtain ⟨n, hn, hno, heq⟩ := h.running id hid
    refine ⟨n, hn, fun hmem => ?_, heq⟩
    rcases List.mem_append.1 hmem with hmem | hmem
    · exact hno hmem
    · exact hne (heq ▸ congrArg Int32.ofNat (List.mem_singleton.1 hmem))
  rw [TinyLlmExecutor.finishOne]
  split
  next hknown =>
    obtain ⟨capacity, hcapacity⟩ := IdMap.contains_eq_true_iff.1 hknown
    have hreserved := (h.reserved seqId).trans hcapacity
    rw [logged_freeSequence]
    dsimp only
    have hreservations : reservations { x with
        handle := ((symbols.freeSequence x.handle.1 (Int32.ofNat seqId)).2, x.handle.2 ++
          [.freeSequence (Int32.ofNat seqId)
            (symbols.freeSequence x.handle.1 (Int32.ofNat seqId)).1])
        allocated := x.allocated.erase (asU32 seqId) } = ⟨x.reservations.config,
          Function.update x.reservations.reserved (Int32.ofNat seqId) none,
          x.reservations.freed ++ [Int32.ofNat seqId]⟩ := by
      rw [reservations_concat rfl, Reservations.after]
    refine ⟨Reservations.allowsAll_concat.2 ⟨h.allowed, ?_⟩, ?_, h.maxBatchSize, h.nonneg, h.pool,
      fun n => ?_, fun id hid => ?_, fun id hid => ?_⟩
    · exact Option.isSome_iff_exists.2 ⟨capacity, hreserved⟩
    · rw [hreservations]
      exact h.loaded
    · rw [hreservations, IdMap.get_erase]
      dsimp only
      by_cases heq : asU32 seqId = asU32 n
      · rw [if_pos heq, ← ofNat_inj.2 heq, Function.update_self]
      · rw [if_neg heq, Function.update_of_ne fun hn => heq (ofNat_inj.1 hn.symm), h.reserved]
    · rw [hreservations] at hid
      rcases List.mem_append.1 hid with hid | hid
      · exact hfreed id hid
      · exact ⟨seqId, by simp, (List.mem_singleton.1 hid).symm⟩
    · rw [hreservations] at hid
      dsimp only at hid
      by_cases heq : id = Int32.ofNat seqId
      · rw [heq, Function.update_self] at hid
        exact absurd rfl hid
      · rw [Function.update_of_ne heq] at hid
        exact hrunning id hid heq
  next hunknown =>
    have hnone : x.reservations.reserved (Int32.ofNat seqId) = none :=
      (h.reserved seqId).trans (IdMap.contains_eq_false_iff.1 (Bool.eq_false_iff.2 hunknown))
    exact { h with
      freed := hfreed
      running := fun id hid => hrunning id hid fun heq => hid (heq ▸ hnone) }

theorem Accounts.sequencesFinished (h : x.Accounts config c sent finished)
    (symbols : TinyLlmSymbols η) (ids : List SeqId) :
    (x.sequencesFinished symbols.logged ids).Accounts config c sent (finished ++ ids) := by
  induction ids generalizing x finished with
  | nil => rwa [List.append_nil]
  | cons id rest ih =>
      rw [List.append_cons]
      exact ih (h.finishOne symbols id)

theorem accounts_new (hfits : config.FitsCInt) {env : String → Option String} {modelPath : String}
    (h : TinyLlmExecutor.new symbols.logged env modelPath config = .ok x) :
    ∃ c, x.Accounts config c [] [] := by
  simp only [TinyLlmExecutor.new] at h
  split at h
  next => cases h
  next =>
    have hbatch : (min config.maxBatchSize.toInt32
        (max (envI32Or (env "PAGED_SERVING_TINY_LLM_MAX_SEQS") defaultMaxConcurrentSeqs) 1)).toInt =
          min (config.maxBatchSize.toNat : Int) (max (envI32Or
            (env "PAGED_SERVING_TINY_LLM_MAX_SEQS") defaultMaxConcurrentSeqs).toInt 1) := by
      rw [toInt_min, toInt_max, toInt_toInt32 hfits.maxBatchSize]
      rfl
    cases hload : symbols.load modelPath ⟨config.blockSize.toInt32, min config.maxBatchSize.toInt32
        (max (envI32Or (env "PAGED_SERVING_TINY_LLM_MAX_SEQS") defaultMaxConcurrentSeqs) 1),
        if env "PAGED_SERVING_TINY_LLM_STRATEGY" != some "2" then config.maxNumBlocks.toInt32
          else 0⟩ with
    | error msg =>
        simp only [TinyLlmSymbols.logged, hload, Except.map] at h
        cases h
    | ok handle =>
        simp only [TinyLlmSymbols.logged, hload, Except.map] at h
        cases h
        refine ⟨_, ⟨rfl, trivial⟩, rfl, rfl, ?_, fun hpaged => ?_, fun n => ?_, fun id hid => ?_,
          fun id hid => absurd rfl hid⟩
        · rw [hbatch]
          omega
        · rw [if_pos hpaged, toInt_toInt32 hfits.maxNumBlocks]
        · exact (Std.ExtTreeMap.getElem?_empty).symm
        · exact absurd hid List.not_mem_nil

end TinyLlmExecutor

end PagedServing
