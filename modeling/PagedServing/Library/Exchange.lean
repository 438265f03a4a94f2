import Mathlib

/-! # Exchanging one element of a list

Parties that move one at a time are a list of which one element is exchanged in each step. What
is spread over the parties changes by what that element has.
-/

namespace Exchange

variable {α β : Type} {l : List α} {i : Nat} {a : α}

/-- An element that is exchanged leaves the others as they are. -/
theorem exists_others (h : l[i]? = some a) :
    ∃ others, l.Perm (a :: others) ∧ ∀ b, (l.set i b).Perm (b :: others) := by
  induction l generalizing i with
  | nil => simp at h
  | cons first rest ih =>
    cases i with
    | zero =>
        obtain rfl : first = a := Option.some.inj h
        exact ⟨rest, .rfl, fun _ => .rfl⟩
    | succ i =>
        obtain ⟨others, hperm, hset⟩ := ih h
        exact ⟨first :: others, (hperm.cons first).trans (.swap _ _ _),
          fun b => ((hset b).cons first).trans (.swap _ _ _)⟩

theorem sum_set (h : l[i]? = some a) (weight : α → Nat) (b : α) :
    ((l.set i b).map weight).sum + weight a = (l.map weight).sum + weight b := by
  obtain ⟨others, hold, hset⟩ := exists_others h
  rw [((hset b).map _).sum_eq, (hold.map _).sum_eq, List.map_cons, List.map_cons, List.sum_cons,
    List.sum_cons]
  omega

/-- What one party had goes to a log. -/
theorem perm_moved {old new known logged logged' : List β} {b : β} (hnew : new.Perm known)
    (hold : old.Perm (b :: known)) (h : logged' = logged ++ [b]) :
    (new ++ logged').Perm (old ++ logged) := by
  rw [h, ← List.append_assoc]
  refine (List.perm_append_singleton b _).trans ?_
  exact ((hnew.append_right _).cons b).trans (hold.symm.append_right _)

end Exchange
