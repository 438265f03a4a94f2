import PagedServing.Types

/-! # Engine configuration

`src/config.rs`: the limits, their defaults and `EngineConfig::validate`. File
loading and saving are not part of the model.
-/

namespace PagedServing

structure SpecialTokenIds where
  bos : TokenId := 1
  eos : TokenId := 2
  pad : TokenId := 0
  unk : TokenId := 3
  deriving DecidableEq

inductive TokenizerKind where
  | simple
  | huggingFace
  deriving DecidableEq

structure TokenizerConfig where
  kind : TokenizerKind := .simple
  path : Option String := none

structure ServingConfig where
  host : String := "127.0.0.1"
  port : UInt16 := 3000
  modelName : String := "paged-serving"

structure EngineConfig where
  blockSize : UInt32 := 16
  maxNumBlocks : UInt32 := 1024
  maxBatchSize : UInt32 := 32
  maxNumSeqs : UInt32 := 256
  maxModelLen : UInt32 := 2048
  maxTotalTokens : UInt32 := 4096
  memoryThreshold : F32 := .finite (Binary32.nearest (9 / 10))
  maxRetryAttempts : UInt32 := 2
  specialTokens : SpecialTokenIds := {}
  tokenizer : TokenizerConfig := {}
  serving : ServingConfig := {}

/-- The white space that `str::trim` removes. -/
def isWhiteSpace (c : Char) : Bool :=
  let n := c.toNat
  (9 ≤ n && n ≤ 13) || n = 0x20 || n = 0x85 || n = 0xA0 || n = 0x1680
    || (0x2000 ≤ n && n ≤ 0x200A) || n = 0x2028 || n = 0x2029 || n = 0x202F
    || n = 0x205F || n = 0x3000

/-- `ceil(num_tokens / block_size)`; the source panics for a block size of zero. -/
def blocksForTokens (numTokens blockSize : Nat) : Nat := numTokens ⌈/⌉ blockSize

namespace EngineConfig

def validate (c : EngineConfig) : Except ConfigError Unit :=
  if c.blockSize = 0 then .error (.invalidBlockSize c.blockSize)
  else if c.maxNumBlocks = 0 then .error (.invalidMaxNumBlocks c.maxNumBlocks)
  else if c.maxBatchSize = 0 then .error (.invalidMaxBatchSize c.maxBatchSize)
  else if c.maxNumSeqs = 0 then .error (.invalidMaxNumSeqs c.maxNumSeqs)
  else if c.maxModelLen = 0 then .error (.invalidMaxModelLen c.maxModelLen)
  else if c.maxTotalTokens = 0 then .error (.invalidMaxTotalTokens c.maxTotalTokens)
  else if !c.memoryThreshold.isFinite || F32.le c.memoryThreshold (.finite 0)
      || !F32.le c.memoryThreshold (.finite 1) then
    .error (.invalidMemoryThreshold c.memoryThreshold)
  else if c.tokenizer.kind = .huggingFace ∧ c.tokenizer.path.isNone then
    .error .missingTokenizerPath
  else if c.serving.port = 0 then .error (.invalidServerPort c.serving.port)
  else if c.serving.modelName.toList.all isWhiteSpace then .error .invalidModelName
  else if c.maxBatchSize > c.maxNumSeqs then
    .error (.batchSizeExceedNumSeqs c.maxBatchSize c.maxNumSeqs)
  else .ok ()

def blocksForTokens (c : EngineConfig) (numTokens : Nat) : Nat :=
  PagedServing.blocksForTokens numTokens c.blockSize.toNat

theorem blocksForTokens_mono (c : EngineConfig) {m n : Nat} (h : m ≤ n) :
    c.blocksForTokens m ≤ c.blocksForTokens n := by
  unfold blocksForTokens PagedServing.blocksForTokens
  by_cases hd : 0 < c.blockSize.toNat
  · exact FixedWidth.ceilDiv_mono hd h
  · have hzero : c.blockSize.toNat = 0 := by omega
    simp [hzero]

/-- What an accepted configuration promises to the scheduler. -/
structure Valid (c : EngineConfig) : Prop where
  blockSize_pos : 0 < c.blockSize.toNat
  maxNumBlocks_pos : 0 < c.maxNumBlocks.toNat
  maxBatchSize_pos : 0 < c.maxBatchSize.toNat
  maxNumSeqs_pos : 0 < c.maxNumSeqs.toNat
  maxModelLen_pos : 0 < c.maxModelLen.toNat
  maxTotalTokens_pos : 0 < c.maxTotalTokens.toNat
  threshold : ∃ q : ℚ, c.memoryThreshold = .finite q ∧ 0 < q ∧ q ≤ 1
  batch_le_seqs : c.maxBatchSize.toNat ≤ c.maxNumSeqs.toNat

private theorem toNat_pos_of_ne {n : UInt32} (h : ¬ n = 0) : 0 < n.toNat := by
  rw [Nat.pos_iff_ne_zero]
  intro hz
  exact h (UInt32.toNat_inj.1 (by simpa using hz))

/-- One guarded check of a chain passes exactly when its guard is false. -/
private theorem guard_ok {ε : Type} {p : Prop} [Decidable p] {e : ε} {rest : Except ε Unit} :
    (if p then .error e else rest) = .ok () ↔ ¬ p ∧ rest = .ok () := by
  by_cases h : p <;> simp [h]

theorem valid_of_validate {c : EngineConfig} (h : c.validate = .ok ()) : c.Valid := by
  rw [validate] at h
  simp only [guard_ok] at h
  obtain ⟨h1, h2, h3, h4, h5, h6, h7, -, -, -, h11, -⟩ := h
  refine ⟨toNat_pos_of_ne h1, toNat_pos_of_ne h2, toNat_pos_of_ne h3, toNat_pos_of_ne h4,
    toNat_pos_of_ne h5, toNat_pos_of_ne h6, ?_, ?_⟩
  · simp only [Bool.or_eq_true, Bool.not_eq_true', not_or, Bool.not_eq_false,
      Bool.not_eq_true, F32.isFinite_iff] at h7
    obtain ⟨⟨hzero | ⟨q, hq⟩, hlow⟩, hhigh⟩ := h7
    · simp [hzero, F32.le] at hlow
    rw [hq] at hlow hhigh
    simp only [F32.le, decide_eq_false_iff_not, not_le, decide_eq_true_eq] at hlow hhigh
    exact ⟨q, hq, hlow, hhigh⟩
  · exact UInt32.le_iff_toNat_le.1 (UInt32.not_lt.1 h11)

/-- Every default passes the checks it is subject to. -/
theorem validate_default : ({} : EngineConfig).validate = .ok () := by decide +kernel

end EngineConfig

end PagedServing
