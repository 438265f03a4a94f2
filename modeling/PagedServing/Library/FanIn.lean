import Mathlib
import PagedServing.Library.Channel
import PagedServing.Library.LabelledLog

/-! # Fan-in

Several sources, each with a queue of its own and a task that forwards the queue into a common
one. Whatever the order of their moves, what the common queue has under one label is what that
source has sent so far.
-/

/-- A source and its task: what is still to be sent, what waits for the task, whether the
source has closed its queue, and whether the task runs. -/
structure Source (α : Type) where
  coming : List α
  queue : List α := []
  closed : Bool := false
  forwarding : Bool := true

namespace Source

variable {α : Type}

/-- Where the parts of a script are. -/
structure Accounts (script forwarded : List α) (s : Source α) : Prop where
  parts : script = forwarded ++ s.queue ++ s.coming
  closed : s.closed = true → s.coming = []
  finished : s.forwarding = false → s.queue = [] ∧ s.closed = true

/-- Every move of a source or of its task lowers this. -/
def weight (s : Source α) : Nat :=
  3 * s.coming.length + 2 * s.queue.length + (!s.closed).toNat + s.forwarding.toNat

end Source

structure FanIn (α : Type) where
  sources : List (Source α)
  merged : List (Nat × α) := []
  receiving : Bool := true

namespace FanIn

open LabelledLog

variable {α : Type}

def start (scripts : List (List α)) : FanIn α where
  sources := scripts.map fun script => { coming := script }

def withSource (f : FanIn α) (i : Nat) (s : Source α) : FanIn α :=
  { f with sources := f.sources.modify i fun _ => s }

/-- The receiver takes the first of the common queue. -/
def take (f : FanIn α) (rest : List (Nat × α)) : FanIn α := { f with merged := rest }

/-- The receiver goes away. -/
def drop (f : FanIn α) : FanIn α := { f with merged := [], receiving := false }

/-- The sources and their tasks. A task ends when its queue is closed and empty, or when what
it forwards is refused. -/
inductive Move : FanIn α → FanIn α → Prop
  | send {f : FanIn α} {i : Nat} {s : Source α} {a : α} {rest : List α}
      (hs : f.sources[i]? = some s) (hcoming : s.coming = a :: rest) :
      Move f (f.withSource i { s with coming := rest, queue := s.queue ++ [a] })
  | close {f : FanIn α} {i : Nat} {s : Source α}
      (hs : f.sources[i]? = some s) (hcoming : s.coming = []) (hopen : s.closed = false) :
      Move f (f.withSource i { s with closed := true })
  | forward {f : FanIn α} {i : Nat} {s : Source α} {a : α} {rest : List α}
      (hs : f.sources[i]? = some s) (hrun : s.forwarding = true) (hqueue : s.queue = a :: rest)
      (hreceiving : f.receiving = true) :
      Move f { f.withSource i { s with queue := rest } with merged := f.merged ++ [(i, a)] }
  | refuse {f : FanIn α} {i : Nat} {s : Source α} {a : α} {rest : List α}
      (hs : f.sources[i]? = some s) (hrun : s.forwarding = true) (hqueue : s.queue = a :: rest)
      (hgone : f.receiving = false) :
      Move f (f.withSource i { s with queue := rest, forwarding := false })
  | finish {f : FanIn α} {i : Nat} {s : Source α}
      (hs : f.sources[i]? = some s) (hrun : s.forwarding = true) (hqueue : s.queue = [])
      (hclosed : s.closed = true) :
      Move f (f.withSource i { s with forwarding := false })

/-- Nothing is queued and no task can bring anything. -/
def Exhausted (f : FanIn α) : Prop := f.merged = [] ∧ ∀ s ∈ f.sources, s.forwarding = false

variable {scripts : List (List α)} {taken rest : List (Nat × α)} {f f' : FanIn α} {i j : Nat}
  {a : α} {script : List α} {s t : Source α}

theorem withSource_eq_some (h : (f.withSource i s).sources[j]? = some t) :
    j = i ∧ t = s ∨ j ≠ i ∧ f.sources[j]? = some t := by
  rw [withSource, List.getElem?_modify] at h
  obtain ⟨t', ht', rfl⟩ := Option.map_eq_some_iff.1 h
  by_cases hij : i = j
  · exact .inl ⟨hij.symm, if_pos hij⟩
  · exact .inr ⟨Ne.symm hij, ht'.trans (congrArg some (if_neg hij).symm)⟩

theorem length_withSource : (f.withSource i s).sources.length = f.sources.length :=
  List.length_modify _ _ _

/-! ## What becomes of the scripts -/

/-- `taken` is what the receiver has taken so far. -/
structure Accounts (scripts : List (List α)) (taken : List (Nat × α)) (f : FanIn α) : Prop where
  receiving : f.receiving = true
  length : f.sources.length = scripts.length
  sources : ∀ (i : Nat) (script : List α) (s : Source α), scripts[i]? = some script →
    f.sources[i]? = some s → s.Accounts script (under i (taken ++ f.merged))
  labels : ∀ p ∈ taken ++ f.merged, p.1 < scripts.length

theorem accounts_start (scripts : List (List α)) : (start scripts).Accounts scripts [] := by
  refine ⟨rfl, List.length_map _, fun i script s hscript hs => ?_, by rintro _ ⟨⟩⟩
  rw [start, List.getElem?_map, hscript] at hs
  obtain rfl := Option.some.inj hs
  exact ⟨rfl, by rintro ⟨⟩, by rintro ⟨⟩⟩

/-- A move of one source that forwards nothing. -/
private theorem Accounts.withSource (h : f.Accounts scripts taken) (hs : f.sources[i]? = some s)
    (hkeeps : ∀ script forwarded, s.Accounts script forwarded → t.Accounts script forwarded) :
    (f.withSource i t).Accounts scripts taken := by
  refine ⟨h.receiving, length_withSource.trans h.length, fun j script s' hscript hs' => ?_, h.labels⟩
  rcases withSource_eq_some hs' with ⟨rfl, rfl⟩ | ⟨-, hs'⟩
  · exact hkeeps _ _ (h.sources j script s hscript hs)
  · exact h.sources j script s' hscript hs'

theorem Accounts.move (h : f.Accounts scripts taken) (hmove : f.Move f') :
    f'.Accounts scripts taken := by
  cases hmove with
  | @send i s a rest hs hcoming =>
      refine h.withSource hs fun script forwarded hsource => ?_
      have hopen : s.closed = false := by
        by_contra hclosed
        rw [hsource.closed (by simpa using hclosed)] at hcoming
        cases hcoming
      refine ⟨?_, fun hclosed => ?_, fun hdone => ?_⟩
      · rw [hsource.parts, hcoming]
        simp
      · rw [hopen] at hclosed
        cases hclosed
      · have hclosed := (hsource.finished hdone).2
        rw [hopen] at hclosed
        cases hclosed
  | @close i s hs hcoming =>
      exact h.withSource hs fun script forwarded hsource =>
        ⟨hsource.parts, fun _ => hcoming, fun hdone => ⟨(hsource.finished hdone).1, rfl⟩⟩
  | @forward i s a rest hs hrun hqueue =>
      have hlt : i < scripts.length := h.length ▸ (List.getElem?_eq_some_iff.1 hs).1
      refine ⟨h.receiving, length_withSource.trans h.length, fun j script t hscript ht => ?_, ?_⟩
      · rw [← List.append_assoc, under_append, under_singleton]
        rcases withSource_eq_some ht with ⟨rfl, rfl⟩ | ⟨hne, ht⟩
        · have hsource := h.sources j script s hscript hs
          refine ⟨?_, hsource.closed, fun hdone => absurd hdone (by simp [hrun])⟩
          rw [if_pos rfl, hsource.parts, hqueue]
          simp
        · rw [if_neg (Ne.symm hne), List.append_nil]
          exact h.sources j script t hscript ht
      · intro p hp
        rw [← List.append_assoc, List.mem_append, List.mem_singleton] at hp
        exact hp.elim (h.labels p) fun heq => heq ▸ hlt
  | refuse _ _ _ hgone =>
      rw [h.receiving] at hgone
      cases hgone
  | @finish i s hs _ hqueue hclosed =>
      exact h.withSource hs fun script forwarded hsource =>
        ⟨hsource.parts, hsource.closed, fun _ => ⟨hqueue, hclosed⟩⟩

/-- The receiver takes what comes first. -/
theorem Accounts.take (h : f.Accounts scripts taken) (hmerged : f.merged = (i, a) :: rest) :
    (f.take rest).Accounts scripts (taken ++ [(i, a)]) := by
  have hsame : (taken ++ [(i, a)]) ++ rest = taken ++ f.merged := by rw [hmerged]; simp
  refine ⟨h.receiving, h.length, fun j script s hscript hs => ?_, fun p hp => h.labels p ?_⟩
  · exact (congrArg (under j) hsame).symm ▸ h.sources j script s hscript hs
  · exact hsame ▸ hp

/-- What has been taken from a source is where its script begins. -/
theorem Accounts.prefix_script (h : f.Accounts scripts taken) (hscript : scripts[i]? = some script) :
    under i taken <+: script := by
  have hlt : i < f.sources.length := h.length ▸ (List.getElem?_eq_some_iff.1 hscript).1
  have hparts := (h.sources i script _ hscript (List.getElem?_eq_getElem hlt)).parts
  rw [under_append, List.append_assoc, List.append_assoc] at hparts
  exact hparts ▸ List.prefix_append _ _

/-- When nothing can come any more, all of every script has been taken. -/
theorem Accounts.of_exhausted (h : f.Accounts scripts taken) (hend : f.Exhausted)
    (hscript : scripts[i]? = some script) : under i taken = script := by
  have hlt : i < f.sources.length := h.length ▸ (List.getElem?_eq_some_iff.1 hscript).1
  have hsource := h.sources i script _ hscript (List.getElem?_eq_getElem hlt)
  obtain ⟨hqueue, hclosed⟩ := hsource.finished (hend.2 _ (List.getElem_mem hlt))
  have hparts := hsource.parts
  rw [hend.1, List.append_nil, hqueue, hsource.closed hclosed, List.append_nil,
    List.append_nil] at hparts
  exact hparts.symm

/-! ## Coming to an end -/

def weight (f : FanIn α) : Nat :=
  (f.sources.map Source.weight).sum + f.merged.length + f.receiving.toNat

theorem Move.weight_lt (h : f.Move f') : f'.weight < f.weight := by
  have hsource : ∀ {i : Nat} {s t : Source α}, f.sources[i]? = some s → t.weight < s.weight →
      ((f.withSource i t).sources.map Source.weight).sum < (f.sources.map Source.weight).sum :=
    fun hs hlt => sum_modify_lt hs hlt
  cases h with
  | send hs hcoming =>
      refine Nat.add_lt_add_right (Nat.add_lt_add_right (hsource hs ?_) _) _
      simp only [Source.weight, hcoming, List.length_append, List.length_cons, List.length_nil]
      omega
  | close hs _ hopen =>
      refine Nat.add_lt_add_right (Nat.add_lt_add_right (hsource hs ?_) _) _
      simp [Source.weight, hopen]
  | @forward i s a rest hs _ hqueue =>
      have hsources : ((f.withSource i { s with queue := rest }).sources.map Source.weight).sum + 2 ≤
          (f.sources.map Source.weight).sum := by
        refine sum_modify_add_le (w := Source.weight) (m := 2) hs ?_
        simp only [Source.weight, hqueue, List.length_cons]
        omega
      have hmerged : (f.merged ++ [(i, a)]).length = f.merged.length + 1 := List.length_append
      have hreceiving : (f.withSource i { s with queue := rest }).receiving = f.receiving := rfl
      rw [weight, weight, hmerged, hreceiving]
      dsimp only
      omega
  | refuse hs hrun hqueue =>
      refine Nat.add_lt_add_right (Nat.add_lt_add_right (hsource hs ?_) _) _
      simp only [Source.weight, hqueue, hrun, List.length_cons, Bool.toNat_true, Bool.toNat_false]
      omega
  | finish hs hrun =>
      refine Nat.add_lt_add_right (Nat.add_lt_add_right (hsource hs ?_) _) _
      simp [Source.weight, hrun]

theorem weight_take_lt (h : f.merged = (i, a) :: rest) : (f.take rest).weight < f.weight := by
  rw [weight, weight, h]
  exact Nat.add_lt_add_right (Nat.add_lt_add_left (Nat.lt_succ_self _) _) _

theorem weight_drop_lt (h : f.receiving = true) : f.drop.weight < f.weight := by
  rw [weight, weight, h]
  exact Nat.lt_succ_of_le (Nat.le_add_right _ _)

theorem Move.receiving_eq (h : f.Move f') : f'.receiving = f.receiving := by
  cases h <;> rfl

/-- Until everything has come, a source or a task has something to do. -/
theorem Accounts.exists_move (h : f.Accounts scripts taken) (hmerged : f.merged = [])
    (hopen : ¬ f.Exhausted) : ∃ f', f.Move f' := by
  have hruns : ∃ s ∈ f.sources, s.forwarding = true := by
    by_contra hno
    refine hopen ⟨hmerged, fun s hs => ?_⟩
    by_contra hrun
    exact hno ⟨s, hs, by simpa using hrun⟩
  obtain ⟨s, hmem, hrun⟩ := hruns
  obtain ⟨i, hs⟩ := List.mem_iff_getElem?.1 hmem
  cases hcoming : s.coming with
  | cons a rest => exact ⟨_, .send hs hcoming⟩
  | nil =>
      cases hclosed : s.closed with
      | false => exact ⟨_, .close hs hcoming hclosed⟩
      | true =>
          cases hqueue : s.queue with
          | nil => exact ⟨_, .finish hs hrun hqueue hclosed⟩
          | cons a rest => exact ⟨_, .forward hs hrun hqueue h.receiving⟩

end FanIn
