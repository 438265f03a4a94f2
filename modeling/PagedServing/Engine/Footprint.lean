import PagedServing.Engine.Latency
import PagedServing.Engine.Trace

/-! # The footprint in the cache

An active sequence holds the blocks that the tokens fed for it fill, and at most one block's worth
of slots more; the pool in use is what the active sequences hold.
-/

namespace PagedServing

open Scheduler FixedWidth Binary32

theorem MemoryStats.utilization_of_unused {m : MemoryStats} (h : m.usedBlocks = 0) :
    m.utilization = .finite 0 := by
  have hzero : F32.ofNat 0 = .finite 0 := congrArg F32.finite (F32.nearest_natCast (Nat.zero_le _))
  rw [utilization, h, hzero, F32.ofNat]
  by_cases htotal : m.totalBlocks = 0
  · rw [if_pos htotal]
  · have hne : 0 < nearest (m.totalBlocks : ℚ) := nearest_natCast_pos (Nat.pos_of_ne_zero htotal)
    simp [htotal, F32.div, hne.ne', F32.zero, F32.isNegative, hne.not_gt]

def Sequence.cachedTokens (seq : Sequence) : List TokenId :=
  seq.request.inputTokens ++ seq.request.outputTokens.dropLast

namespace Scheduler

variable {s : Scheduler}

theorem Wf.usedBlocks_eq_active (hw : s.Wf) (hidle : s.prefillSequences = ∅) :
    s.kvCache.getMemoryStats.usedBlocks =
      (s.activeSequences.map fun seq => seq.logicalBlocks.length).sum := by
  rw [hw.kvCache.usedBlocks_eq, activeSequences, hidle, IdMap.vals_empty, List.nil_append]
  refine (IdMap.map_vals_perm fun id => ?_).sum_eq
  have htables := hw.tables id
  rw [active, hidle] at htables
  have hlength := congrArg (Option.map List.length) htables
  simpa [Option.map_map, Function.comp_def, PageTable.getBlockTable] using hlength

theorem mem_activeSequences_of_idle (hw : s.Wf) (hidle : s.prefillSequences = ∅) {seq : Sequence}
    (h : seq ∈ s.activeSequences) : s.active seq.seqId = some seq := by
  rw [activeSequences, hidle, IdMap.vals_empty, List.nil_append, IdMap.mem_vals] at h
  obtain ⟨id, hid⟩ := h
  rw [(hw.decode_tag hid).1]
  exact hw.active_of_decode hid

end Scheduler

theorem sum_between {α : Type} {l : List α} {need held : α → Nat} {size : Nat}
    (h : ∀ a ∈ l, need a ≤ held a * size ∧ held a * size ≤ need a + size) :
    (l.map need).sum ≤ (l.map held).sum * size ∧
      (l.map held).sum * size ≤ (l.map need).sum + l.length * size := by
  induction l with
  | nil => simp
  | cons a l ih =>
    obtain ⟨hlow, hhigh⟩ := h a List.mem_cons_self
    obtain ⟨hlows, hhighs⟩ := ih fun b hb => h b (List.mem_cons_of_mem a hb)
    simp only [List.map_cons, List.sum_cons, List.length_cons, Nat.add_mul, Nat.one_mul]
    omega

namespace Session

section Courses

variable {σ τ δ : Type} [IncrementalDecoder δ] [TokenizerTrait τ δ] {x : Setting τ}
  {answer : List TokenId → TokenId → Prop} {R : σ → Fed → Prop} {s : Session σ τ δ}

theorem Inv.footprint (hi : s.Inv answer R x) {id : SeqId} {seq : Sequence}
    (hactive : s.engine.scheduler.active id = some seq) :
    (entriesOf s.calls id).flatMap (·.tokens) = seq.cachedTokens ∧
      seq.cachedTokens.length ≤ seq.logicalBlocks.length * x.config.blockSize.toNat ∧
      seq.logicalBlocks.length * x.config.blockSize.toNat ≤
        seq.cachedTokens.length + x.config.blockSize.toNat := by
  obtain ⟨r, hr, rfl, w, d, hsteps, hw, hat, ht⟩ := hi.decoding hactive
  have hadmits := (hi.admits r hr).1
  have htraced := hsteps.traced hi.valid hadmits (Course.lawful_start x answer r)
    (Course.traced_start x r)
  obtain ⟨hcount, -, n, hn, hfits⟩ := htraced.running seq d hat
  have hplace := hw.place
  rw [hat] at hplace
  obtain ⟨hne, hbetween⟩ := hplace
  have hctx := hbetween.contextLen hadmits
  have hpos := List.length_pos_of_ne_nil hne
  have htokens : seq.cachedTokens = r.inputTokens ++ w.generated.dropLast := by
    rw [Sequence.cachedTokens, hbetween.after.inputTokens, hbetween.after.outputTokens]
  have hcached : seq.cachedTokens.length = n := by
    rw [htokens, List.length_append, List.length_dropLast]
    omega
  have hlength : seq.getBlockTable.length = seq.logicalBlocks.length := List.length_map _
  refine ⟨?_, ?_, ?_⟩
  · obtain ⟨k, hk⟩ := Nat.exists_eq_succ_of_ne_zero hpos.ne'
    rw [← ht.entries, Request.TraceLaw.fed_tokens htraced.law.fed (hcount.trans hk), htokens,
      List.dropLast_eq_take, hk]
    rfl
  · rw [hcached, ← hlength]
    exact hfits.room hi.valid
  · have hheld : seq.logicalBlocks.length ≤ x.config.blocksForTokens (n + 1) := hlength ▸ hfits.2
    rw [hcached]
    cases hblocks : seq.logicalBlocks.length with
    | zero => omega
    | succ b =>
        rw [hblocks] at hheld
        have hlast := (lt_ceilDiv_iff hi.valid.blockSize_pos).1 (Nat.lt_of_succ_le hheld)
        rw [Nat.succ_mul, Nat.mul_comm]
        omega

end Courses

variable {σ τ δ : Type}

/-- The tokens that have been fed, and how the blocks in use compare with them. -/
structure Compact (s : Session σ τ δ) : Prop where
  fed : ∀ (id : SeqId) (seq : Sequence), s.engine.scheduler.active id = some seq →
    (entriesOf s.calls id).flatMap (·.tokens) = seq.cachedTokens
  each : ∀ (id : SeqId) (seq : Sequence), s.engine.scheduler.active id = some seq →
    seq.cachedTokens.length ≤
        seq.logicalBlocks.length * s.engine.scheduler.config.blockSize.toNat ∧
      seq.logicalBlocks.length * s.engine.scheduler.config.blockSize.toNat ≤
        seq.cachedTokens.length + s.engine.scheduler.config.blockSize.toNat
  pool :
    (s.engine.scheduler.activeSequences.map (·.cachedTokens.length)).sum ≤
        s.engine.scheduler.kvCache.getMemoryStats.usedBlocks *
          s.engine.scheduler.config.blockSize.toNat ∧
      s.engine.scheduler.kvCache.getMemoryStats.usedBlocks *
          s.engine.scheduler.config.blockSize.toNat ≤
        (s.engine.scheduler.activeSequences.map (·.cachedTokens.length)).sum +
          s.engine.scheduler.activeSequences.length * s.engine.scheduler.config.blockSize.toNat

variable [GPUExecutorTrait σ] [IncrementalDecoder δ] [TokenizerTrait τ δ] {s : Session σ τ δ}

theorem compact_of_reachable {config : EngineConfig} {tokenizer : τ} {gpuExecutor : σ}
    (h : s.Reachable config tokenizer gpuExecutor) : s.Compact := by
  have hi := h.inv_any.1
  have heach : ∀ (id : SeqId) (seq : Sequence), s.engine.scheduler.active id = some seq → _ :=
    fun id seq hactive => hi.footprint hactive
  refine ⟨fun id seq hactive => (heach id seq hactive).1, fun id seq hactive => ?_, ?_⟩
  · rw [hi.config]
    exact (heach id seq hactive).2
  · rw [hi.sound.wf.usedBlocks_eq_active hi.idle, hi.config]
    exact sum_between fun seq hseq =>
      (heach _ seq (mem_activeSequences_of_idle hi.sound.wf hi.idle hseq)).2

/-- One sequence is active after the first step. -/
theorem compact_of_reachable_small :
    ((new smallConfig SimpleTokenizer.new ⟨fun _ => []⟩ :
        Session (FunctionBackend stopAtFour) SimpleTokenizer SimpleDecoder).run
          (smallOps.take 2)).engine.scheduler.activeSequences.length = 1 ∧
      ((new smallConfig SimpleTokenizer.new ⟨fun _ => []⟩ :
        Session (FunctionBackend stopAtFour) SimpleTokenizer SimpleDecoder).run
          (smallOps.take 2)).Compact :=
  ⟨by decide +kernel, compact_of_reachable ⟨by decide +kernel, _, rfl⟩⟩

end Session

end PagedServing
