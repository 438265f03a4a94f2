import Mathlib

/-! # Frames cut from a buffer

A parser takes complete frames off the front of a buffer. If a frame that is complete is
found whatever follows it, then how the input was cut into chunks makes no difference to
what is read from it.
-/

/-- How to find the first complete frame of a buffer. -/
structure Framing (α φ : Type) where
  next : List α → Option (φ × List α)
  bytes : φ → List α
  bytes_append : ∀ {buffer : List α} {frame : φ} {rest : List α},
    next buffer = some (frame, rest) → bytes frame ++ rest = buffer
  bytes_ne_nil : ∀ {buffer : List α} {frame : φ} {rest : List α},
    next buffer = some (frame, rest) → bytes frame ≠ []
  next_append : ∀ {buffer : List α} {frame : φ} {rest : List α} (more : List α),
    next buffer = some (frame, rest) → next (buffer ++ more) = some (frame, rest ++ more)

namespace Framing

variable {α φ β : Type} (F : Framing α φ) (emit : φ → β) (stops : β → Bool)

/-- At most `n` frames, up to one that ends the reading. -/
def drainUpTo : Nat → List α → List β × List α
  | 0, buffer => ([], buffer)
  | n + 1, buffer =>
      match F.next buffer with
      | none => ([], buffer)
      | some (frame, rest) =>
          if stops (emit frame) then ([emit frame], rest)
          else (emit frame :: (drainUpTo n rest).1, (drainUpTo n rest).2)

/-- All complete frames of a buffer; there are no more of them than elements. -/
def drain (buffer : List α) : List β × List α := F.drainUpTo emit stops buffer.length buffer

variable {F emit stops} {buffer rest : List α} {frame : φ}

theorem length_lt (h : F.next buffer = some (frame, rest)) : rest.length < buffer.length := by
  have hpos := List.length_pos_iff.2 (F.bytes_ne_nil h)
  rw [← F.bytes_append h, List.length_append]
  omega

theorem drainUpTo_eq_drain {n : Nat} (h : buffer.length ≤ n) :
    F.drainUpTo emit stops n buffer = F.drain emit stops buffer := by
  rw [drain]
  -- both numbers are large enough, so they can be lowered together
  suffices hany : ∀ m, buffer.length ≤ m →
      F.drainUpTo emit stops n buffer = F.drainUpTo emit stops m buffer from hany _ le_rfl
  intro m hm
  induction n generalizing m buffer with
  | zero =>
    have hnil := List.length_eq_zero_iff.1 (Nat.le_zero.1 h)
    cases hnext : F.next buffer with
    | none => cases m <;> simp [drainUpTo, hnext]
    | some p => exact absurd (length_lt hnext) (by simp [hnil])
  | succ n ih =>
    cases hnext : F.next buffer with
    | none => cases m <;> simp [drainUpTo, hnext]
    | some p =>
      obtain ⟨frame, rest⟩ := p
      have hlt := length_lt hnext
      cases m with
      | zero => omega
      | succ m => simp only [drainUpTo, hnext, ih (by omega : rest.length ≤ n) m (by omega)]

theorem drain_of_none (h : F.next buffer = none) : F.drain emit stops buffer = ([], buffer) := by
  rw [drain]
  cases buffer.length <;> simp [drainUpTo, h]

theorem drain_of_some (h : F.next buffer = some (frame, rest)) :
    F.drain emit stops buffer =
      if stops (emit frame) then ([emit frame], rest)
      else (emit frame :: (F.drain emit stops rest).1, (F.drain emit stops rest).2) := by
  have hlt := length_lt h
  rw [← drainUpTo_eq_drain (Nat.le_succ buffer.length), drainUpTo, h]
  simp only [drainUpTo_eq_drain hlt.le]

/-! ## Chunks -/

variable (F emit stops) in
/-- Draining a longer buffer is draining the front, then what is left with the rest. -/
theorem drain_append (buffer more : List α) :
    F.drain emit stops (buffer ++ more) =
      if (F.drain emit stops buffer).1.any stops then
        ((F.drain emit stops buffer).1, (F.drain emit stops buffer).2 ++ more)
      else
        ((F.drain emit stops buffer).1 ++
            (F.drain emit stops ((F.drain emit stops buffer).2 ++ more)).1,
          (F.drain emit stops ((F.drain emit stops buffer).2 ++ more)).2) := by
  induction hlen : buffer.length using Nat.strongRecOn generalizing buffer with
  | _ n ih =>
    cases hnext : F.next buffer with
    | none => simp [drain_of_none hnext]
    | some p =>
      obtain ⟨frame, rest⟩ := p
      rw [drain_of_some hnext, drain_of_some (F.next_append more hnext)]
      by_cases hstop : stops (emit frame) = true
      · simp [hstop]
      · rw [if_neg hstop, if_neg hstop, ih rest.length (hlen ▸ length_lt hnext) rest rfl]
        by_cases hany : (F.drain emit stops rest).1.any stops = true
        · simp [hany]
        · simp [hstop, hany]

/-- Draining ends for want of a frame, or with an output that ends the reading. -/
theorem next_drain (h : (F.drain emit stops buffer).1.any stops = false) :
    F.next (F.drain emit stops buffer).2 = none := by
  induction hlen : buffer.length using Nat.strongRecOn generalizing buffer with
  | _ n ih =>
    cases hnext : F.next buffer with
    | none => rwa [drain_of_none hnext]
    | some p =>
      obtain ⟨frame, rest⟩ := p
      rw [drain_of_some hnext] at h ⊢
      by_cases hstop : stops (emit frame) = true
      · simp [hstop] at h
      · rw [if_neg hstop] at h ⊢
        rw [List.any_cons, Bool.or_eq_false_iff] at h
        exact ih rest.length (hlen ▸ length_lt hnext) h.2 rfl

variable (F emit stops) in
/-- The frames read and what is left make up the buffer. -/
theorem exists_frames (buffer : List α) :
    ∃ frames : List φ, (F.drain emit stops buffer).1 = frames.map emit ∧
      frames.flatMap F.bytes ++ (F.drain emit stops buffer).2 = buffer ∧
      ∀ frame ∈ frames, ∃ b r, F.next b = some (frame, r) := by
  induction hlen : buffer.length using Nat.strongRecOn generalizing buffer with
  | _ n ih =>
    cases hnext : F.next buffer with
    | none => exact ⟨[], by simp [drain_of_none hnext]⟩
    | some p =>
      obtain ⟨frame, rest⟩ := p
      have happend := F.bytes_append hnext
      rw [drain_of_some hnext]
      split
      next => exact ⟨[frame], rfl, by simpa using happend, by simpa using ⟨buffer, rest, hnext⟩⟩
      next =>
        obtain ⟨frames, hmap, hbytes, hall⟩ := ih rest.length (hlen ▸ length_lt hnext) rest rfl
        refine ⟨frame :: frames, by simp [hmap], ?_, ?_⟩
        · rw [List.flatMap_cons, List.append_assoc, hbytes, happend]
        · exact List.forall_mem_cons.2 ⟨⟨buffer, rest, hnext⟩, hall⟩

/-- The list up to its first element that stops. -/
def upTo (stops : β → Bool) : List β → List β
  | [] => []
  | b :: rest => if stops b then [b] else b :: upTo stops rest

/-- An element that stops is the last one. -/
theorem eq_upTo_of_mem {stops : β → Bool} {l read : List β} {b : β} (h : read <+: upTo stops l)
    (hb : b ∈ read) (hstop : stops b = true) : read = upTo stops l := by
  induction l generalizing read with
  | nil => exact List.prefix_nil.1 h
  | cons a rest ih =>
    cases read with
    | nil => cases hb
    | cons a' read =>
      by_cases hlast : stops a = true
      · rw [upTo, if_pos hlast] at h ⊢
        obtain ⟨rfl, hnil⟩ := List.cons_prefix_cons.1 h
        rw [List.prefix_nil.1 hnil]
      · rw [upTo, if_neg hlast] at h ⊢
        obtain ⟨rfl, hrest⟩ := List.cons_prefix_cons.1 h
        have hne : b ≠ a' := fun heq => hlast (heq ▸ hstop)
        rw [ih hrest ((List.mem_cons.1 hb).resolve_left hne)]

theorem any_upTo (stops : β → Bool) (l : List β) : (upTo stops l).any stops = l.any stops := by
  induction l with
  | nil => rfl
  | cons a rest ih =>
    rw [upTo]
    split
    next h => simp [h]
    next h => simp [h, ih]

/-- Frames that are found alone are found one after the other. -/
theorem drain_frames {frames : List φ}
    (h : ∀ frame ∈ frames, F.next (F.bytes frame) = some (frame, [])) :
    (F.drain emit stops (frames.flatMap F.bytes)).1 = upTo stops (frames.map emit) := by
  induction frames with
  | nil =>
    obtain ⟨read, houtputs, hbytes, hnext⟩ := F.exists_frames emit stops []
    obtain ⟨hnil, -⟩ := List.append_eq_nil_iff.1 hbytes
    cases read with
    | nil => exact houtputs
    | cons frame read =>
        obtain ⟨b, r, hb⟩ := hnext frame List.mem_cons_self
        exact absurd (List.append_eq_nil_iff.1 hnil).1 (F.bytes_ne_nil hb)
  | cons frame rest ih =>
    obtain ⟨hframe, hrest⟩ := List.forall_mem_cons.1 h
    have hnext := F.next_append (rest.flatMap F.bytes) hframe
    rw [List.flatMap_cons, drain_of_some hnext, List.map_cons, upTo]
    split
    next => rfl
    next => rw [List.nil_append, ih hrest]

/-- What is read of the front of an input is read of the input. -/
theorem drain_prefix {input : List α} (h : buffer <+: input) :
    (F.drain emit stops buffer).1 <+: (F.drain emit stops input).1 := by
  obtain ⟨more, rfl⟩ := h
  rw [drain_append]
  split
  next => exact List.prefix_rfl
  next => exact List.prefix_append _ _

/-- What has been read and what is buffered. -/
structure Reader (α β : Type) where
  outputs : List β := []
  buffer : List α := []

variable (F emit stops) in
/-- A chunk arrives: everything that is now complete is read, unless the reading has ended. -/
def push (r : Reader α β) (chunk : List α) : Reader α β :=
  if r.outputs.any stops then { r with buffer := r.buffer ++ chunk }
  else
    ⟨r.outputs ++ (F.drain emit stops (r.buffer ++ chunk)).1,
      (F.drain emit stops (r.buffer ++ chunk)).2⟩

theorem push_push (r : Reader α β) (chunk more : List α) :
    F.push emit stops (F.push emit stops r chunk) more =
      F.push emit stops r (chunk ++ more) := by
  by_cases hstop : r.outputs.any stops = true
  · simp [push, hstop]
  · have happend := F.drain_append emit stops (r.buffer ++ chunk) more
    rw [List.append_assoc] at happend
    rw [push, push, push, if_neg hstop, if_neg hstop, happend]
    by_cases hany : (F.drain emit stops (r.buffer ++ chunk)).1.any stops = true
    · simp [hany]
    · simp [hstop, hany]

/-- Nothing complete is left in the buffer, or the reading has ended. -/
def Reader.Settled (F : Framing α φ) (stops : β → Bool) (r : Reader α β) : Prop :=
  r.outputs.any stops = false → F.next r.buffer = none

theorem Reader.settled_new : ({} : Reader α β).Settled F stops := by
  intro _
  by_contra h
  obtain ⟨⟨frame, rest⟩, hnext⟩ := Option.ne_none_iff_exists'.1 h
  exact F.bytes_ne_nil hnext (List.append_eq_nil_iff.1 (F.bytes_append hnext)).1

theorem Reader.settled_push (r : Reader α β) (chunk : List α) :
    (F.push emit stops r chunk).Settled F stops := by
  intro h
  by_cases hstop : r.outputs.any stops = true
  · simp [push, hstop] at h
  · simp only [push, hstop] at h ⊢
    refine next_drain ?_
    simpa [Bool.eq_false_iff.2 hstop] using h

theorem push_nil {r : Reader α β} (h : r.Settled F stops) : F.push emit stops r [] = r := by
  by_cases hstop : r.outputs.any stops = true
  · simp [push, hstop]
  · rw [push, if_neg hstop, List.append_nil, drain_of_none (h (Bool.eq_false_iff.2 hstop))]
    simp

/-- However the input is cut, the reader ends as if it had come in one piece. -/
theorem foldl_push {r : Reader α β} (h : r.Settled F stops) (chunks : List (List α)) :
    chunks.foldl (F.push emit stops) r = F.push emit stops r chunks.flatten := by
  induction chunks generalizing r with
  | nil => exact (push_nil h).symm
  | cons chunk rest ih =>
    rw [List.foldl_cons, ih (Reader.settled_push r chunk), push_push, List.flatten_cons]

theorem push_new (input : List α) :
    F.push emit stops {} input = ⟨(F.drain emit stops input).1, (F.drain emit stops input).2⟩ := by
  simp [push]

variable (F emit stops) in
/-- Read chunks until the reading ends; the second component has come in unread. -/
def readChunks : List (List α) → Reader α β → Reader α β × List (List α)
  | [], r => (r, [])
  | chunk :: rest, r =>
      if (F.push emit stops r chunk).outputs.any stops then (F.push emit stops r chunk, rest)
      else readChunks rest (F.push emit stops r chunk)

theorem foldl_push_of_stops {r : Reader α β} (h : r.outputs.any stops = true)
    (chunks : List (List α)) :
    chunks.foldl (F.push emit stops) r = { r with buffer := r.buffer ++ chunks.flatten } := by
  induction chunks generalizing r with
  | nil => simp
  | cons chunk rest ih =>
    have hpush : F.push emit stops r chunk = { r with buffer := r.buffer ++ chunk } := if_pos h
    have hstop : ({ r with buffer := r.buffer ++ chunk } : Reader α β).outputs.any stops = true := h
    rw [List.foldl_cons, hpush, ih hstop]
    simp

variable (F emit stops) in
/-- Not reading on differs from reading on in what is buffered at the end only. -/
theorem foldl_push_eq_readChunks (r : Reader α β) (chunks : List (List α)) :
    chunks.foldl (F.push emit stops) r =
      ⟨(F.readChunks emit stops chunks r).1.outputs,
        (F.readChunks emit stops chunks r).1.buffer ++
          (F.readChunks emit stops chunks r).2.flatten⟩ := by
  induction chunks generalizing r with
  | nil => simp [readChunks]
  | cons chunk rest ih =>
    rw [List.foldl_cons, readChunks]
    split
    next hstop => rw [foldl_push_of_stops hstop]
    next => exact ih _

/-! ## Delimiters -/

section Delimiters

variable [DecidableEq α] {pattern : List α} {i : Nat}

/-- The first place where a pattern stands. -/
def position (pattern : List α) : List α → Option Nat
  | [] => none
  | a :: rest =>
      if pattern <+: a :: rest then some 0 else (position pattern rest).map (· + 1)

theorem position_eq_some (h : position pattern buffer = some i) :
    i < buffer.length ∧ pattern <+: buffer.drop i := by
  induction buffer generalizing i with
  | nil => simp [position] at h
  | cons a rest ih =>
    rw [position] at h
    split at h
    next hp =>
      cases h
      exact ⟨Nat.succ_pos _, hp⟩
    next =>
      obtain ⟨j, hj, rfl⟩ := Option.map_eq_some_iff.1 h
      exact ⟨Nat.succ_lt_succ (ih hj).1, (ih hj).2⟩

theorem position_add_length_le (h : position pattern buffer = some i) :
    i + pattern.length ≤ buffer.length := by
  obtain ⟨hlt, hprefix⟩ := position_eq_some h
  have hle := hprefix.length_le
  rw [List.length_drop] at hle
  omega

/-- A pattern that stands in the buffer stands nowhere earlier in a longer one. -/
theorem position_append (h : position pattern buffer = some i) (more : List α) :
    position pattern (buffer ++ more) = some i := by
  induction buffer generalizing i with
  | nil => simp [position] at h
  | cons a rest ih =>
    rw [position] at h
    rw [List.cons_append, position]
    split at h
    next hp =>
      have hp' : pattern <+: a :: (rest ++ more) := hp.trans (List.prefix_append (a :: rest) more)
      rw [if_pos hp']
      exact h
    next hno =>
      obtain ⟨j, hj, rfl⟩ := Option.map_eq_some_iff.1 h
      have hle := position_add_length_le hj
      have hno' : ¬ pattern <+: a :: (rest ++ more) := by
        intro hp
        refine hno (List.prefix_of_prefix_length_le hp (List.prefix_append (a :: rest) more) ?_)
        rw [List.length_cons]
        omega
      rw [if_neg hno', ih hj]
      rfl

theorem position_eq_none (h : position pattern buffer = none) (hi : i < buffer.length) :
    ¬ pattern <+: buffer.drop i := by
  induction buffer generalizing i with
  | nil => simp at hi
  | cons a rest ih =>
    rw [position] at h
    split at h
    next => cases h
    next hno =>
      cases i with
      | zero => exact hno
      | succ i => exact ih (Option.map_eq_none_iff.1 h) (Nat.lt_of_succ_lt_succ hi)

/-- Before the position found the pattern stands nowhere. -/
theorem not_prefix_of_lt_position (h : position pattern buffer = some i) {k : Nat} (hk : k < i) :
    ¬ pattern <+: buffer.drop k := by
  induction buffer generalizing i k with
  | nil => simp [position] at h
  | cons a rest ih =>
    rw [position] at h
    split at h
    next =>
      cases h
      exact absurd hk (Nat.not_lt_zero k)
    next hno =>
      obtain ⟨j, hj, rfl⟩ := Option.map_eq_some_iff.1 h
      cases k with
      | zero => exact hno
      | succ k => exact ih hj (Nat.lt_of_succ_lt_succ hk)

/-- A pattern stands where its first element does for the first time. -/
theorem position_of_notMem {a : α} {tail front : List α} (h : a ∉ front) (rest : List α) :
    position (a :: tail) (front ++ (a :: tail ++ rest)) = some front.length := by
  induction front with
  | nil => exact if_pos (List.prefix_append _ _)
  | cons b front ih =>
    obtain ⟨hne, hfront⟩ := List.ne_and_not_mem_of_not_mem_cons h
    rw [List.cons_append, position, if_neg, ih hfront]
    · rfl
    · exact fun hprefix => hne (List.cons_prefix_cons.1 hprefix).1

/-- A pattern that more input brings does not lie wholly in the old input. -/
theorem lt_of_position_append {more : List α} (hne : pattern ≠ [])
    (h : position pattern buffer = none) (h' : position pattern (buffer ++ more) = some i) :
    buffer.length < i + pattern.length := by
  by_contra hle
  rw [Nat.not_lt] at hle
  have hpos := List.length_pos_iff.2 hne
  have hprefix := (position_eq_some h').2
  rw [List.drop_append_of_le_length (by omega)] at hprefix
  refine position_eq_none h (by omega : i < buffer.length) ?_
  refine List.prefix_of_prefix_length_le hprefix (List.prefix_append _ _) ?_
  rw [List.length_drop]
  omega

end Delimiters

end Framing
