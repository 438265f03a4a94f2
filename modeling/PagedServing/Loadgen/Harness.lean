import PagedServing.Library.Exchange
import PagedServing.Loadgen.RunRequest

/-! # The measurements of the load generator

`main` of `src/bin/loadgen.rs`: workers share the counters of the requests and the list of the
records, in closed loop or with arrivals of their own. Whatever their interleaving and whatever
becomes of the requests, a measurement ends with one record for each index.
-/

namespace PagedServing

open Relation Exchange

/-! ## Arguments -/

structure DatasetEntry where
  prompt : String
  promptTokens : Option UInt32 := none

/-- The entries of a dataset file, of which there is one at least. -/
structure Dataset where
  entries : List DatasetEntry
  ne_nil : entries ≠ []

namespace Dataset

def trimLine (line : List Char) : List Char :=
  (line.dropWhile isWhiteSpace).rdropWhile isWhiteSpace

/-- The entries on the lines from the `i`-th one on. -/
def readLines (parseEntry : String → Except String DatasetEntry) :
    Nat → List (List Char) → Except String (List DatasetEntry)
  | _, [] => .ok []
  | i, line :: rest =>
      if (trimLine line).isEmpty then readLines parseEntry (i + 1) rest
      else
        match parseEntry (String.ofList (trimLine line)) with
        | .error e => .error s!"数据集第 {i + 1} 行解析失败: {e}"
        | .ok entry => (readLines parseEntry (i + 1) rest).map (entry :: ·)

/-- `load_dataset`, with what has been read of the file. -/
def load (parseEntry : String → Except String DatasetEntry) (content : Except String String) :
    Except String Dataset :=
  match content with
  | .error e => .error ("读取数据集失败: " ++ e)
  | .ok content =>
      match readLines parseEntry 0 (lines content.toList) with
      | .error e => .error e
      | .ok entries =>
          if h : entries = [] then .error "数据集为空" else .ok ⟨entries, h⟩

/-- The entry of a request; the entries are used in turn. -/
def entry (d : Dataset) (id : Nat) : DatasetEntry :=
  d.entries.get ⟨id % d.entries.length, Nat.mod_lt _ (List.length_pos_iff.2 d.ne_nil)⟩

end Dataset

inductive LoadMode where
  | closed
  | poisson
  deriving DecidableEq

structure LoadArgs where
  mode : LoadMode
  concurrency : Nat := 1
  dataset : Dataset
  requests : Nat := 64
  warmupSecs : Nat := 30
  maxTokens : UInt32 := 128
  timeoutSecs : Nat := 120
  codec : JsonCodec
  outputTokenizer : Option (String → Option Nat) := none

def LoadArgs.validate (args : LoadArgs) : Except String Unit :=
  if args.mode = .closed ∧ args.concurrency = 0 then
    .error "closed 模式 --concurrency 必须 >= 1"
  else if args.requests = 0 then .error "--requests 必须 >= 1"
  else if args.maxTokens = 0 then .error "--max-tokens 必须 >= 1"
  else if args.timeoutSecs = 0 then .error "--timeout-secs 必须 >= 1"
  else .ok ()

/-! ## The state -/

/-- Where a task is. -/
inductive LoadTask where
  /-- About to look whether the warm-up is over. -/
  | checking
  /-- About to take the identifier of a request that is not measured. -/
  | preparing
  | warming (id : Nat)
  /-- About to take the index of a measurement. -/
  | claiming
  | picking (idx : Nat)
  | sending (idx id : Nat)
  | finished
  deriving DecidableEq

inductive LoadPhase where
  | warmup (stop : Bool)
  | measuring
  | finished
  deriving DecidableEq

structure Harness where
  phase : LoadPhase
  tasks : List LoadTask
  nextId : Nat := 0
  /-- In the mode with arrivals, the number of requests that have been issued. -/
  measuredCount : Nat := 0
  records : List RequestRecord := []

namespace Harness

def startMeasuring (args : LoadArgs) (s : Harness) : Harness :=
  { s with
    phase := .measuring
    tasks :=
      match args.mode with
      | .closed => List.replicate args.concurrency .claiming
      | .poisson => [] }

def start (args : LoadArgs) : Harness :=
  if args.warmupSecs = 0 then startMeasuring args { phase := .measuring, tasks := [] }
  else
    { phase := .warmup false
      tasks :=
        match args.mode with
        | .closed => List.replicate args.concurrency .checking
        | .poisson => [] }

def withTask (s : Harness) (i : Nat) (task : LoadTask) : Harness :=
  { s with tasks := s.tasks.set i task }

/-- What a task does when its request has ended. -/
def afterRequest (args : LoadArgs) (goesOn : LoadTask) : LoadTask :=
  match args.mode with
  | .closed => goesOn
  | .poisson => .finished

def recordOf (args : LoadArgs) (idx id : Nat) (result : HttpResult) : RequestRecord :=
  RequestArgs.record
    { codec := args.codec
      requestId := id
      measuredIndex := some idx
      promptTokensMeta := (args.dataset.entry id).promptTokens
      outputTokenizer := args.outputTokenizer } result

/-- The steps of the tasks and of `main`. -/
inductive Step (args : LoadArgs) : Harness → Harness → Prop
  /-- The time of the warm-up is over. -/
  | stop {s : Harness} (hphase : s.phase = .warmup false) :
      Step args s { s with phase := .warmup true }
  | leave {s : Harness} {i : Nat} (hphase : s.phase = .warmup true)
      (htask : s.tasks[i]? = some .checking) : Step args s (s.withTask i .finished)
  /-- A relaxed load may miss that the warm-up is over. -/
  | check {s : Harness} {i : Nat} {stop : Bool} (hphase : s.phase = .warmup stop)
      (htask : s.tasks[i]? = some .checking) : Step args s (s.withTask i .preparing)
  | prepare {s : Harness} {i : Nat} (htask : s.tasks[i]? = some .preparing) :
      Step args s { s.withTask i (.warming s.nextId) with nextId := s.nextId + 1 }
  /-- The result is only logged. -/
  | warmed {s : Harness} {i id : Nat} (htask : s.tasks[i]? = some (.warming id)) :
      Step args s (s.withTask i (afterRequest args .checking))
  | arriveWarm {s : Harness} (hmode : args.mode = .poisson) (hphase : s.phase = .warmup false) :
      Step args s { s with tasks := s.tasks ++ [.warming s.nextId], nextId := s.nextId + 1 }
  | measure {s : Harness} (hphase : s.phase = .warmup true)
      (hall : ∀ task ∈ s.tasks, task = .finished) : Step args s (s.startMeasuring args)
  | claim {s : Harness} {i : Nat} (htask : s.tasks[i]? = some .claiming)
      (hlt : s.measuredCount < args.requests) :
      Step args s { s.withTask i (.picking s.measuredCount) with
        measuredCount := s.measuredCount + 1 }
  | claimNone {s : Harness} {i : Nat} (htask : s.tasks[i]? = some .claiming)
      (hle : args.requests ≤ s.measuredCount) :
      Step args s { s.withTask i .finished with measuredCount := s.measuredCount + 1 }
  | pick {s : Harness} {i idx : Nat} (htask : s.tasks[i]? = some (.picking idx)) :
      Step args s { s.withTask i (.sending idx s.nextId) with nextId := s.nextId + 1 }
  | arrive {s : Harness} (hmode : args.mode = .poisson) (hphase : s.phase = .measuring)
      (hlt : s.measuredCount < args.requests) :
      Step args s { s with
        tasks := s.tasks ++ [.sending s.measuredCount s.nextId]
        nextId := s.nextId + 1
        measuredCount := s.measuredCount + 1 }
  /-- The request ends in whatever way. -/
  | record {s : Harness} {i idx id : Nat} (htask : s.tasks[i]? = some (.sending idx id))
      (result : HttpResult) :
      Step args s { s.withTask i (afterRequest args .claiming) with
        records := s.records ++ [recordOf args idx id result] }
  | finish {s : Harness} (hphase : s.phase = .measuring)
      (hall : ∀ task ∈ s.tasks, task = .finished)
      (hissued : args.mode = .poisson → args.requests ≤ s.measuredCount) :
      Step args s { s with phase := .finished }

def Reachable (args : LoadArgs) (s : Harness) : Prop :=
  args.validate = .ok () ∧ ReflTransGen (Step args) (start args) s

end Harness

/-! ## The end -/

/-- `sort_by_key` orders `None` before every index. -/
def indexLe : Option Nat → Option Nat → Bool
  | none, _ => true
  | some _, none => false
  | some a, some b => a ≤ b

def finalizeRecords (records : List RequestRecord) : List RequestRecord :=
  records.mergeSort fun r r' => indexLe r.measuredIndex r'.measuredIndex

/-- The records of a measurement: one for each index in order, with the identifiers of one stretch,
each made for its entry. -/
structure Harness.Finalized (args : LoadArgs) (s : Harness) : Prop where
  indices : (finalizeRecords s.records).map (·.measuredIndex) = (List.range args.requests).map some
  ids : ∃ first, (s.records.map (·.requestId)).Perm (List.range' first args.requests)
  records : ∀ r ∈ s.records, ∃ idx result, r = recordOf args idx r.requestId result

theorem indexLe_trans (a b c : Option Nat) (h : indexLe a b = true) (h' : indexLe b c = true) :
    indexLe a c = true := by
  cases a <;> cases b <;> cases c <;> simp_all [indexLe]
  omega

theorem indexLe_total (a b : Option Nat) : (indexLe a b || indexLe b a) = true := by
  cases a <;> cases b <;> simp [indexLe]
  omega

theorem indexLe_antisymm (a b : Option Nat) (h : indexLe a b = true) (h' : indexLe b a = true) :
    a = b := by
  cases a <;> cases b <;> simp_all [indexLe]
  omega

/-- Sorting brings the indices into their order. -/
theorem finalizeRecords_indices {records : List RequestRecord} {n : Nat}
    (h : (records.map (·.measuredIndex)).Perm ((List.range n).map some)) :
    (finalizeRecords records).map (·.measuredIndex) = (List.range n).map some := by
  have hsorted : ((finalizeRecords records).map (·.measuredIndex)).Pairwise
      fun a b => indexLe a b = true := by
    refine List.pairwise_map.2 (List.pairwise_mergeSort (fun _ _ _ => ?_) (fun _ _ => ?_) _)
    · exact indexLe_trans _ _ _
    · exact indexLe_total _ _
  have hrange : ((List.range n).map some).Pairwise fun a b => indexLe a b = true := by
    refine List.pairwise_map.2 (List.pairwise_lt_range.imp fun hlt => ?_)
    simp [indexLe, hlt.le]
  refine List.Perm.eq_of_pairwise (fun a b _ _ => indexLe_antisymm a b) hsorted hrange ?_
  exact ((List.mergeSort_perm records _).map _).trans h

/-! ## Where the indices are -/

namespace LoadTask

/-- The index that a task has taken. -/
def index? : LoadTask → Option Nat
  | picking idx => some idx
  | sending idx _ => some idx
  | _ => none

/-- The identifier of the measured request of a task. -/
def id? : LoadTask → Option Nat
  | sending _ id => some id
  | _ => none

def isWarmup : LoadTask → Bool
  | checking => true
  | preparing => true
  | warming _ => true
  | finished => true
  | _ => false

def isMeasuring : LoadTask → Bool
  | claiming => true
  | picking _ => true
  | sending _ _ => true
  | finished => true
  | _ => false

def weight : LoadTask → Nat
  | claiming => 1
  | picking _ => 3
  | sending _ _ => 2
  | _ => 0

end LoadTask

namespace Harness

variable {args : LoadArgs} {s s' : Harness}

/-- The indices and the identifiers that have been given out are with the tasks or in the
records. -/
structure Accounts (args : LoadArgs) (first : Nat) (s : Harness) : Prop where
  tasks : ∀ task ∈ s.tasks, task.isMeasuring = true
  closed : args.mode = .closed → s.tasks.length = args.concurrency
  finished : args.mode = .closed → .finished ∈ s.tasks → args.requests ≤ s.measuredCount
  indices : (s.tasks.filterMap LoadTask.index? ++ s.records.filterMap (·.measuredIndex)).Perm
    (List.range (min s.measuredCount args.requests))
  first_le : first ≤ s.nextId
  ids : (s.tasks.filterMap LoadTask.id? ++ s.records.map (·.requestId)).Perm
    (List.range' first (s.nextId - first))
  records : ∀ r ∈ s.records, ∃ idx result, r = recordOf args idx r.requestId result

/-- What holds at each phase. -/
def Sound (args : LoadArgs) (s : Harness) : Prop :=
  match s.phase with
  | .warmup _ =>
      (∀ task ∈ s.tasks, task.isWarmup = true) ∧ s.records = [] ∧ s.measuredCount = 0
  | .measuring => ∃ first, s.Accounts args first
  | .finished => (∀ task ∈ s.tasks, task = .finished) ∧ s.Finalized args

/-! ## Steps -/

theorem recordOf_eq (args : LoadArgs) (idx id : Nat) (result : HttpResult) :
    (recordOf args idx id result).measuredIndex = some idx ∧
      (recordOf args idx id result).requestId = id := by
  cases result with
  | failed => exact ⟨rfl, rfl⟩
  | response status display body =>
      rw [recordOf, RequestArgs.record]
      split <;> exact ⟨rfl, rfl⟩

theorem accounts_startMeasuring (hrecords : s.records = []) (hcount : s.measuredCount = 0) :
    (s.startMeasuring args).Accounts args s.nextId := by
  have htasks : ∀ task ∈ (s.startMeasuring args).tasks, task = .claiming := by
    intro task htask
    rw [startMeasuring] at htask
    cases hmode : args.mode with
    | closed => exact List.eq_of_mem_replicate (by simpa [hmode] using htask)
    | poisson => simp [hmode] at htask
  have hnone {β : Type} (f : LoadTask → Option β) (hf : f .claiming = none) :
      (s.startMeasuring args).tasks.filterMap f = [] :=
    List.filterMap_eq_nil_iff.2 fun task htask => htasks task htask ▸ hf
  refine ⟨fun task htask => htasks task htask ▸ rfl, fun hmode => ?_, fun _ hmem => ?_, ?_, le_rfl,
    ?_, ?_⟩
  · simp [startMeasuring, hmode]
  · cases htasks _ hmem
  · rw [hnone _ rfl]
    simp [startMeasuring, hrecords, hcount]
  · rw [hnone _ rfl]
    simp [startMeasuring, hrecords]
  · simp [startMeasuring, hrecords]

section Account

variable {first i : Nat} {others tasks' : List LoadTask} {a b : LoadTask}

theorem Accounts.exchange (h : s.Accounts args first) (hold : s.tasks.Perm (a :: others))
    (hnew : tasks'.Perm (b :: others)) (hb : b.isMeasuring = true) :
    (∀ task ∈ tasks', task.isMeasuring = true) ∧
      (args.mode = .closed → tasks'.length = args.concurrency) := by
  refine ⟨fun task htask => ?_, fun hmode => ?_⟩
  · rcases List.mem_cons.1 (hnew.mem_iff.1 htask) with rfl | hmem
    · exact hb
    · exact h.tasks task (hold.mem_iff.2 (List.mem_cons_of_mem _ hmem))
  · rw [hnew.length_eq, ← h.closed hmode, hold.length_eq, List.length_cons, List.length_cons]

/-- An index is given out. -/
theorem perm_range_of_index {indices known : List Nat} {m n : Nat} (hlt : m < n)
    (h : known.Perm (List.range (min m n))) (hindices : indices.Perm (m :: known)) :
    indices.Perm (List.range (min (m + 1) n)) := by
  rw [Nat.min_eq_left hlt.le] at h
  rw [Nat.min_eq_left hlt, List.range_succ]
  exact (hindices.trans (h.cons m)).trans (List.perm_append_singleton m _).symm

/-- An identifier is given out. -/
theorem perm_range'_of_id {ids known : List Nat} {n : Nat} (hle : first ≤ n)
    (h : known.Perm (List.range' first (n - first))) (hids : ids.Perm (n :: known)) :
    ids.Perm (List.range' first (n + 1 - first)) := by
  have hlast : List.range' first (n + 1 - first) = List.range' first (n - first) ++ [n] := by
    rw [Nat.sub_add_comm hle, List.range'_concat]
    congr 2
    omega
  rw [hlast]
  exact (hids.trans (h.cons n)).trans (List.perm_append_singleton n _).symm

theorem Accounts.claim (h : s.Accounts args first) (htask : s.tasks[i]? = some .claiming)
    (hlt : s.measuredCount < args.requests) :
    Accounts args first { s.withTask i (.picking s.measuredCount) with
      measuredCount := s.measuredCount + 1 } := by
  obtain ⟨others, hold, hset⟩ := exists_others htask
  have hnew := hset (.picking s.measuredCount)
  obtain ⟨htasks, hclosed⟩ := h.exchange hold hnew rfl
  refine ⟨htasks, hclosed, fun hmode hmem => ?_, ?_, h.first_le, ?_, h.records⟩
  · have hother := (List.mem_cons.1 (hnew.mem_iff.1 hmem)).resolve_left (by simp)
    exact (h.finished hmode (hold.mem_iff.2 (List.mem_cons_of_mem _ hother))).trans (Nat.le_succ _)
  · refine perm_range_of_index hlt h.indices ?_
    exact ((hnew.filterMap _).append_right _).trans
      (((hold.filterMap LoadTask.index?).symm.append_right _).cons _)
  · exact ((hnew.filterMap _).append_right _).trans
      (((hold.filterMap LoadTask.id?).symm.append_right _).trans h.ids)

theorem Accounts.claimNone (h : s.Accounts args first) (htask : s.tasks[i]? = some .claiming)
    (hle : args.requests ≤ s.measuredCount) :
    Accounts args first { s.withTask i .finished with measuredCount := s.measuredCount + 1 } := by
  obtain ⟨others, hold, hset⟩ := exists_others htask
  have hnew := hset .finished
  obtain ⟨htasks, hclosed⟩ := h.exchange hold hnew rfl
  have hsame : min (s.measuredCount + 1) args.requests = min s.measuredCount args.requests := by
    omega
  refine ⟨htasks, hclosed, fun _ _ => Nat.le_succ_of_le hle, ?_, h.first_le, ?_, h.records⟩
  · rw [hsame]
    exact ((hnew.filterMap _).append_right _).trans
      (((hold.filterMap LoadTask.index?).symm.append_right _).trans h.indices)
  · exact ((hnew.filterMap _).append_right _).trans
      (((hold.filterMap LoadTask.id?).symm.append_right _).trans h.ids)

theorem Accounts.pick (h : s.Accounts args first) {idx : Nat}
    (htask : s.tasks[i]? = some (.picking idx)) :
    Accounts args first { s.withTask i (.sending idx s.nextId) with nextId := s.nextId + 1 } := by
  obtain ⟨others, hold, hset⟩ := exists_others htask
  have hnew := hset (.sending idx s.nextId)
  obtain ⟨htasks, hclosed⟩ := h.exchange hold hnew rfl
  refine ⟨htasks, hclosed, fun hmode hmem => ?_, ?_, Nat.le_succ_of_le h.first_le, ?_, h.records⟩
  · have hother := (List.mem_cons.1 (hnew.mem_iff.1 hmem)).resolve_left (by simp)
    exact h.finished hmode (hold.mem_iff.2 (List.mem_cons_of_mem _ hother))
  · exact ((hnew.filterMap _).append_right _).trans
      (((hold.filterMap LoadTask.index?).symm.append_right _).trans h.indices)
  · refine perm_range'_of_id h.first_le h.ids ?_
    exact ((hnew.filterMap _).append_right _).trans
      (((hold.filterMap LoadTask.id?).symm.append_right _).cons _)

theorem Accounts.arrive (h : s.Accounts args first) (hmode : args.mode = .poisson)
    (hlt : s.measuredCount < args.requests) :
    Accounts args first { s with
      tasks := s.tasks ++ [.sending s.measuredCount s.nextId]
      nextId := s.nextId + 1
      measuredCount := s.measuredCount + 1 } := by
  have hnew := List.perm_append_singleton (.sending s.measuredCount s.nextId) s.tasks
  have hno : args.mode ≠ .closed := fun heq => by simp [hmode] at heq
  refine ⟨fun task htask => ?_, fun heq => absurd heq hno, fun heq => absurd heq hno, ?_,
    Nat.le_succ_of_le h.first_le, ?_, h.records⟩
  · rcases List.mem_cons.1 (hnew.mem_iff.1 htask) with rfl | hmem
    · rfl
    · exact h.tasks task hmem
  · exact perm_range_of_index hlt h.indices ((hnew.filterMap _).append_right _)
  · exact perm_range'_of_id h.first_le h.ids ((hnew.filterMap _).append_right _)

theorem Accounts.record (h : s.Accounts args first) {idx id : Nat}
    (htask : s.tasks[i]? = some (.sending idx id)) (result : HttpResult) :
    Accounts args first { s.withTask i (afterRequest args .claiming) with
      records := s.records ++ [recordOf args idx id result] } := by
  obtain ⟨others, hold, hset⟩ := exists_others htask
  have hnew := hset (afterRequest args .claiming)
  obtain ⟨hidx, hid⟩ := recordOf_eq args idx id result
  have hafter : afterRequest args .claiming = .claiming ∨
      afterRequest args .claiming = .finished := by
    rw [afterRequest]
    cases args.mode with
    | closed => exact .inl rfl
    | poisson => exact .inr rfl
  obtain ⟨htasks, hclosed⟩ := h.exchange hold hnew (by rcases hafter with h | h <;> rw [h] <;> rfl)
  have hindex : (afterRequest args .claiming).index? = none := by
    rcases hafter with h | h <;> rw [h] <;> rfl
  have hnone : (afterRequest args .claiming).id? = none := by
    rcases hafter with h | h <;> rw [h] <;> rfl
  refine ⟨htasks, hclosed, fun hmode hmem => ?_, ?_, h.first_le, ?_, ?_⟩
  · have hne : LoadTask.finished ≠ afterRequest args .claiming := by simp [afterRequest, hmode]
    have hother := (List.mem_cons.1 (hnew.mem_iff.1 hmem)).resolve_left hne
    exact h.finished hmode (hold.mem_iff.2 (List.mem_cons_of_mem _ hother))
  · have hnewf := hnew.filterMap LoadTask.index?
    rw [List.filterMap_cons_none hindex] at hnewf
    have hmoved : ((s.records ++ [recordOf args idx id result]).filterMap (·.measuredIndex)) =
        s.records.filterMap (·.measuredIndex) ++ [idx] := by
      rw [List.filterMap_append, List.filterMap_cons_some hidx]
      rfl
    exact (perm_moved hnewf (hold.filterMap LoadTask.index?) hmoved).trans h.indices
  · have hnewf := hnew.filterMap LoadTask.id?
    rw [List.filterMap_cons_none hnone] at hnewf
    have hmoved : ((s.records ++ [recordOf args idx id result]).map (·.requestId)) =
        s.records.map (·.requestId) ++ [id] := by
      rw [List.map_append, List.map_singleton, hid]
    exact (perm_moved hnewf (hold.filterMap LoadTask.id?) hmoved).trans h.ids
  · intro r hr
    rcases List.mem_append.1 hr with hr | hr
    · exact h.records r hr
    · obtain rfl := List.mem_singleton.1 hr
      exact ⟨idx, result, by rw [hid]⟩

end Account

theorem map_eq_map_some {α β : Type} {f : α → Option β} {l : List α}
    (h : ∀ a ∈ l, ∃ b, f a = some b) : l.map f = (l.filterMap f).map some := by
  induction l with
  | nil => rfl
  | cons a rest ih =>
    obtain ⟨⟨b, hb⟩, hrest⟩ := List.forall_mem_cons.1 h
    rw [List.map_cons, List.filterMap_cons_some hb, List.map_cons, ih hrest, hb]

/-- All indices are recorded when no task is left. -/
theorem Accounts.finalized {first : Nat} (h : s.Accounts args first)
    (hvalid : args.validate = .ok ()) (hall : ∀ task ∈ s.tasks, task = .finished)
    (hissued : args.mode = .poisson → args.requests ≤ s.measuredCount) : s.Finalized args := by
  have hnone {β : Type} (f : LoadTask → Option β) (hf : f .finished = none) :
      s.tasks.filterMap f = [] :=
    List.filterMap_eq_nil_iff.2 fun task htask => hall task htask ▸ hf
  have hcount : args.requests ≤ s.measuredCount := by
    cases hmode : args.mode with
    | poisson => exact hissued hmode
    | closed =>
        have hpos : args.concurrency ≠ 0 := by
          intro hzero
          simp [LoadArgs.validate, hmode, hzero] at hvalid
        obtain ⟨task, htask⟩ := List.exists_mem_of_ne_nil s.tasks (by
          rw [← List.length_pos_iff, h.closed hmode]
          exact Nat.pos_of_ne_zero hpos)
        exact h.finished hmode (hall task htask ▸ htask)
  have hmap : s.records.map (·.measuredIndex) =
      (s.records.filterMap (·.measuredIndex)).map some := by
    refine map_eq_map_some fun r hr => ?_
    obtain ⟨idx, result, heq⟩ := h.records r hr
    exact ⟨idx, heq ▸ (recordOf_eq args idx _ result).1⟩
  have hindices := h.indices
  rw [hnone _ rfl, Nat.min_eq_right hcount] at hindices
  have hids := h.ids
  rw [hnone _ rfl, List.nil_append] at hids
  have hlen : s.nextId - first = args.requests := by
    have hlen := hids.length_eq
    have hlen' := congrArg List.length hmap
    have hlen'' := hindices.length_eq
    simp only [List.length_map, List.length_range', List.nil_append, List.length_range]
      at hlen hlen' hlen''
    omega
  refine ⟨finalizeRecords_indices ?_, ⟨first, hlen ▸ hids⟩, h.records⟩
  rw [hmap]
  exact hindices.map some

/-! ## Runs -/

theorem sound_start (args : LoadArgs) : (start args).Sound args := by
  rw [start]
  split
  next => exact ⟨_, accounts_startMeasuring (s := { phase := .measuring, tasks := [] }) rfl rfl⟩
  next =>
    refine ⟨fun task htask => ?_, rfl, rfl⟩
    cases hmode : args.mode with
    | closed => exact List.eq_of_mem_replicate (by simpa [hmode] using htask) ▸ rfl
    | poisson => simp [hmode] at htask

/-- A task that measures runs in a measurement only. -/
theorem Sound.accounts (h : s.Sound args) {i : Nat} {task : LoadTask}
    (htask : s.tasks[i]? = some task) (hno : task.isWarmup = false) :
    s.phase = .measuring ∧ ∃ first, s.Accounts args first := by
  have hmem := List.mem_of_getElem? htask
  rw [Sound] at h
  cases hphase : s.phase with
  | warmup stop =>
      rw [hphase] at h
      rw [h.1 task hmem] at hno
      cases hno
  | measuring =>
      rw [hphase] at h
      exact ⟨rfl, h⟩
  | finished =>
      rw [hphase] at h
      rw [h.1 task hmem] at hno
      cases hno

/-- A task of the warm-up runs in the warm-up only. -/
theorem Sound.warmup (h : s.Sound args) {i : Nat} {task : LoadTask}
    (htask : s.tasks[i]? = some task) (hno : task.isMeasuring = false) :
    (∃ stop, s.phase = .warmup stop) ∧ (∀ task ∈ s.tasks, task.isWarmup = true) ∧
      s.records = [] ∧ s.measuredCount = 0 := by
  have hmem := List.mem_of_getElem? htask
  rw [Sound] at h
  cases hphase : s.phase with
  | warmup stop =>
      rw [hphase] at h
      exact ⟨⟨stop, rfl⟩, h⟩
  | measuring =>
      rw [hphase] at h
      obtain ⟨first, h⟩ := h
      rw [h.tasks task hmem] at hno
      cases hno
  | finished =>
      rw [hphase] at h
      rw [h.1 task hmem] at hno
      cases hno

theorem sound_of_warmup {stop : Bool} (hphase : s.phase = .warmup stop)
    (htasks : ∀ task ∈ s.tasks, task.isWarmup = true) (hrecords : s.records = [])
    (hcount : s.measuredCount = 0) : s.Sound args := by
  rw [Sound, hphase]
  exact ⟨htasks, hrecords, hcount⟩

theorem sound_of_accounts {first : Nat} (hphase : s.phase = .measuring)
    (h : s.Accounts args first) : s.Sound args := by
  rw [Sound, hphase]
  exact ⟨first, h⟩

/-- A step within the warm-up. -/
theorem Sound.withTask (h : s.Sound args) {i : Nat} {task : LoadTask} (task' : LoadTask)
    (htask : s.tasks[i]? = some task) (hno : task.isMeasuring = false)
    (hwarm : task'.isWarmup = true) (nextId : Nat) :
    Sound args { s.withTask i task' with nextId := nextId } := by
  obtain ⟨⟨stop, hphase⟩, htasks, hrecords, hcount⟩ := h.warmup htask hno
  refine sound_of_warmup hphase (fun other hother => ?_) hrecords hcount
  rcases List.mem_or_eq_of_mem_set hother with hmem | rfl
  · exact htasks other hmem
  · exact hwarm

theorem Step.sound (hstep : Step args s s') (hvalid : args.validate = .ok ())
    (h : s.Sound args) : s'.Sound args := by
  cases hstep with
  | stop hphase =>
      rw [Sound, hphase] at h
      exact h
  | leave hphase htask => exact h.withTask .finished htask rfl rfl s.nextId
  | check hphase htask => exact h.withTask .preparing htask rfl rfl s.nextId
  | prepare htask => exact h.withTask (.warming s.nextId) htask rfl rfl (s.nextId + 1)
  | warmed htask =>
      refine h.withTask _ htask rfl ?_ s.nextId
      rw [afterRequest]
      cases args.mode <;> rfl
  | arriveWarm hmode hphase =>
      rw [Sound, hphase] at h
      obtain ⟨htasks, hrecords, hcount⟩ := h
      refine sound_of_warmup hphase (fun task htask => ?_) hrecords hcount
      rcases List.mem_append.1 htask with hmem | hmem
      · exact htasks task hmem
      · exact List.mem_singleton.1 hmem ▸ rfl
  | measure hphase hall =>
      rw [Sound, hphase] at h
      exact sound_of_accounts rfl (accounts_startMeasuring h.2.1 h.2.2)
  | claim htask hlt =>
      obtain ⟨hphase, first, hacc⟩ := h.accounts htask rfl
      exact sound_of_accounts hphase (hacc.claim htask hlt)
  | claimNone htask hle =>
      obtain ⟨hphase, first, hacc⟩ := h.accounts htask rfl
      exact sound_of_accounts hphase (hacc.claimNone htask hle)
  | pick htask =>
      obtain ⟨hphase, first, hacc⟩ := h.accounts htask rfl
      exact sound_of_accounts hphase (hacc.pick htask)
  | arrive hmode hphase hlt =>
      rw [Sound, hphase] at h
      obtain ⟨first, hacc⟩ := h
      exact sound_of_accounts hphase (hacc.arrive hmode hlt)
  | record htask result =>
      obtain ⟨hphase, first, hacc⟩ := h.accounts htask rfl
      exact sound_of_accounts hphase (hacc.record htask result)
  | finish hphase hall hissued =>
      rw [Sound, hphase] at h
      obtain ⟨first, hacc⟩ := h
      obtain ⟨hindices, hids, hrecords⟩ := hacc.finalized hvalid hall hissued
      exact ⟨hall, hindices, hids, hrecords⟩

theorem Reachable.sound (h : s.Reachable args) : s.Sound args := by
  obtain ⟨hvalid, hsteps⟩ := h
  induction hsteps with
  | refl => exact sound_start args
  | tail _ hstep ih => exact hstep.sound hvalid ih

/-! ## A measurement ends -/

/-- Every step of a measurement lowers this. -/
def weight (args : LoadArgs) (s : Harness) : Nat :=
  4 * (args.requests - s.measuredCount) + (s.tasks.map LoadTask.weight).sum +
    (decide (s.phase = .measuring)).toNat

theorem Step.weight_lt (hstep : Step args s s') (h : s.Sound args) (hphase : s.phase = .measuring) :
    s'.weight args < s.weight args ∧ (s'.phase = .measuring ∨ s'.phase = .finished) := by
  have hno {i : Nat} {task : LoadTask} (htask : s.tasks[i]? = some task)
      (hno : task.isMeasuring = false) : False := by
    obtain ⟨⟨stop, hwarm⟩, -⟩ := h.warmup htask hno
    rw [hphase] at hwarm
    cases hwarm
  cases hstep with
  | stop hwarm => rw [hphase] at hwarm; cases hwarm
  | leave hwarm => rw [hphase] at hwarm; cases hwarm
  | check hwarm => rw [hphase] at hwarm; cases hwarm
  | prepare htask => exact (hno htask rfl).elim
  | warmed htask => exact (hno htask rfl).elim
  | arriveWarm _ hwarm => rw [hphase] at hwarm; cases hwarm
  | measure hwarm => rw [hphase] at hwarm; cases hwarm
  | claim htask hlt =>
      have hsum := sum_set htask LoadTask.weight (.picking s.measuredCount)
      simp only [LoadTask.weight] at hsum
      refine ⟨?_, .inl hphase⟩
      simp only [weight, withTask, hphase, decide_true]
      omega
  | claimNone htask hle =>
      have hsum := sum_set htask LoadTask.weight .finished
      simp only [LoadTask.weight] at hsum
      refine ⟨?_, .inl hphase⟩
      simp only [weight, withTask, hphase, decide_true]
      omega
  | @pick i idx htask =>
      have hsum := sum_set htask LoadTask.weight (.sending idx s.nextId)
      simp only [LoadTask.weight] at hsum
      refine ⟨?_, .inl hphase⟩
      simp only [weight, withTask, hphase, decide_true]
      omega
  | arrive _ _ hlt =>
      refine ⟨?_, .inl hphase⟩
      simp only [weight, List.map_append, List.sum_append, List.map_singleton, List.sum_singleton,
        LoadTask.weight]
      omega
  | record htask result =>
      have hsum : _ + 2 = _ + _ := sum_set htask LoadTask.weight (afterRequest args .claiming)
      have hle : (afterRequest args .claiming).weight ≤ 1 := by
        rw [afterRequest]
        cases args.mode <;> decide
      refine ⟨?_, .inl hphase⟩
      simp only [weight, withTask, hphase, decide_true]
      omega
  | finish =>
      refine ⟨?_, .inr rfl⟩
      simp [weight, hphase]

/-- A measurement that has not ended can go on. -/
theorem Sound.exists_step (h : s.Sound args) (hphase : s.phase = .measuring) :
    ∃ s', Step args s s' := by
  rw [Sound, hphase] at h
  obtain ⟨first, hacc⟩ := h
  by_cases hall : ∀ task ∈ s.tasks, task = .finished
  · cases hmode : args.mode with
    | closed => exact ⟨_, .finish hphase hall fun heq => by rw [hmode] at heq; cases heq⟩
    | poisson =>
        rcases Nat.lt_or_ge s.measuredCount args.requests with hlt | hle
        · exact ⟨_, .arrive hmode hphase hlt⟩
        · exact ⟨_, .finish hphase hall fun _ => hle⟩
  · simp only [not_forall] at hall
    obtain ⟨task, hmem, hne⟩ := hall
    obtain ⟨i, htask⟩ := List.mem_iff_getElem?.1 hmem
    have hkind := hacc.tasks task hmem
    cases task with
    | claiming =>
        rcases Nat.lt_or_ge s.measuredCount args.requests with hlt | hle
        · exact ⟨_, .claim htask hlt⟩
        · exact ⟨_, .claimNone htask hle⟩
    | picking idx => exact ⟨_, .pick htask⟩
    | sending idx id => exact ⟨_, .record htask (.failed true "")⟩
    | finished => exact absurd rfl hne
    | checking => cases hkind
    | preparing => cases hkind
    | warming => cases hkind

theorem Sound.not_step (h : s.Sound args) (hphase : s.phase = .finished)
    (hstep : Step args s s') : False := by
  rw [Sound, hphase] at h
  have hno {i : Nat} {task : LoadTask} (htask : s.tasks[i]? = some task) (hne : task ≠ .finished) :
      False := hne (h.1 task (List.mem_of_getElem? htask))
  cases hstep with
  | leave _ htask => exact hno htask (by simp)
  | check _ htask => exact hno htask (by simp)
  | prepare htask => exact hno htask (by simp)
  | warmed htask => exact hno htask (by simp)
  | claim htask => exact hno htask (by simp)
  | claimNone htask => exact hno htask (by simp)
  | pick htask => exact hno htask (by simp)
  | record htask => exact hno htask (by simp)
  | stop hwarm => rw [hphase] at hwarm; cases hwarm
  | arriveWarm _ hwarm => rw [hphase] at hwarm; cases hwarm
  | measure hwarm => rw [hphase] at hwarm; cases hwarm
  | arrive _ hwarm => rw [hphase] at hwarm; cases hwarm
  | finish hwarm => rw [hphase] at hwarm; cases hwarm

theorem Reachable.steps (h : s.Reachable args) (hsteps : ReflTransGen (Step args) s s') :
    s'.Reachable args :=
  ⟨h.1, h.2.trans hsteps⟩

theorem Reachable.phase_of_steps (h : s.Reachable args) (hphase : s.phase = .measuring)
    (hsteps : ReflTransGen (Step args) s s') : s'.phase = .measuring ∨ s'.phase = .finished := by
  induction hsteps with
  | refl => exact .inl hphase
  | tail hsteps hstep ih =>
      have hsound := (h.steps hsteps).sound
      rcases ih with hmeasuring | hfinished
      · exact (hstep.weight_lt hsound hmeasuring).2
      · exact (hsound.not_step hfinished hstep).elim

/-- Once it has begun, a measurement ends, in whatever order the tasks run and whatever becomes of
the requests; and then there is one record for each index, in order, with an identifier of its
own. -/
theorem finalized_of_measuring (h : s.Reachable args) (hphase : s.phase = .measuring) :
    Acc (fun s' s => Step args s s') s ∧
      ∀ s', ReflTransGen (Step args) s s' → (∀ s'', ¬ Step args s' s'') →
        s'.phase = .finished ∧ s'.Finalized args := by
  constructor
  · induction hn : s.weight args using Nat.strongRecOn generalizing s with
    | _ n ih =>
      refine .intro s fun s' hstep => ?_
      obtain ⟨hlt, hphase'⟩ := Step.weight_lt hstep h.sound hphase
      have hreachable := h.steps (.single hstep)
      rcases hphase' with hmeasuring | hfinished
      · exact ih _ (hn ▸ hlt) hreachable hmeasuring rfl
      · exact .intro s' fun s'' hstep' => (hreachable.sound.not_step hfinished hstep').elim
  · intro s' hsteps hstuck
    have hsound := (h.steps hsteps).sound
    rcases h.phase_of_steps hphase hsteps with hmeasuring | hfinished
    · obtain ⟨s'', hstep⟩ := hsound.exists_step hmeasuring
      exact absurd hstep (hstuck s'')
    · rw [Sound, hfinished] at hsound
      exact ⟨hfinished, hsound.2⟩

def shortArgs : LoadArgs where
  mode := .closed
  concurrency := 2
  dataset := ⟨[⟨"a", some 3⟩], List.cons_ne_nil _ _⟩
  requests := 3
  warmupSecs := 0
  codec := ⟨fun _ => "", fun _ => .error ""⟩

theorem finalized_of_measuring_short :
    Acc (fun s' s => Step shortArgs s s') (start shortArgs) ∧
      ∀ s', ReflTransGen (Step shortArgs) (start shortArgs) s' → (∀ s'', ¬ Step shortArgs s' s'') →
        s'.phase = .finished ∧ s'.Finalized shortArgs :=
  finalized_of_measuring ⟨rfl, .refl⟩ rfl

end Harness

end PagedServing
