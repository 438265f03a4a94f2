import Mathlib

/-! # Channels with one receiver

An unbounded queue to a receiver that may go away. What is sent to a receiver that has gone
is refused, and what it had not taken is dropped.
-/

structure Channel (α : Type) where
  queue : List α := []
  received : List α := []
  connected : Bool := true

namespace Channel

variable {α : Type} {c c' : Channel α} {a : α}

/-- All that the receiver has taken or can still take. -/
def content (c : Channel α) : List α := c.received ++ c.queue

/-- The channel after `a` has been sent, and whether it was accepted. -/
def send (c : Channel α) (a : α) : Bool × Channel α :=
  if c.connected then (true, { c with queue := c.queue ++ [a] }) else (false, c)

def receive (c : Channel α) : Option (Channel α) :=
  match c.queue with
  | [] => none
  | a :: rest => some { c with queue := rest, received := c.received ++ [a] }

def disconnect (c : Channel α) : Channel α := { c with queue := [], connected := false }

theorem content_send (c : Channel α) (a : α) :
    (c.send a).2.content = c.content ++ if c.connected then [a] else [] := by
  rw [send]
  split <;> simp [content]

@[simp] theorem connected_send (c : Channel α) (a : α) :
    (c.send a).2.connected = c.connected := by
  rw [send]
  split <;> simp_all

@[simp] theorem accepted_send (c : Channel α) (a : α) : (c.send a).1 = c.connected := by
  rw [send]
  split <;> simp_all

theorem receive_eq_some (h : c.receive = some c') :
    c'.content = c.content ∧ c'.connected = c.connected ∧
      c'.queue.length < c.queue.length := by
  rw [receive] at h
  split at h
  next => cases h
  next a rest hqueue =>
    obtain rfl := Option.some.inj h
    simp [content, hqueue]

/-- A receiver that goes keeps what it has taken. -/
theorem content_disconnect (c : Channel α) : c.disconnect.content <+: c.content :=
  ⟨c.queue, by simp [content, disconnect]⟩

end Channel

/-! ## Several parties -/

/-- A sum over several parties when one of them gets lighter. -/
theorem sum_modify_add_le {α : Type} {l : List α} {f : α → α} {w : α → Nat} {k m : Nat} {a : α}
    (hk : l[k]? = some a) (h : w (f a) + m ≤ w a) :
    ((l.modify k f).map w).sum + m ≤ (l.map w).sum := by
  induction l generalizing k with
  | nil => cases hk
  | cons b rest ih =>
    cases k with
    | zero =>
        obtain rfl : b = a := Option.some.inj hk
        simp only [List.modify_zero_cons, List.map_cons, List.sum_cons]
        omega
    | succ k =>
        have hrest := ih hk
        simp only [List.modify_succ_cons, List.map_cons, List.sum_cons]
        omega

theorem sum_modify_lt {α : Type} {l : List α} {f : α → α} {w : α → Nat} {k : Nat} {a : α}
    (hk : l[k]? = some a) (h : w (f a) < w a) :
    ((l.modify k f).map w).sum < (l.map w).sum :=
  Nat.lt_of_succ_le (sum_modify_add_le (f := f) (m := 1) hk (Nat.succ_le_of_lt h))
