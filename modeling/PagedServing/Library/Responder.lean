import Mathlib

/-! # Machines that answer calls

A state that changes with every call and a reply to each. Two states cannot be told apart if
a relation between them is kept by every call and the replies agree.
-/

namespace Responder

variable {σ ι ρ : Type} (respond : σ → ι → ρ × σ)

def respondAll : List ι → σ → List ρ × σ
  | [], s => ([], s)
  | call :: rest, s =>
      ((respond s call).1 :: (respondAll rest (respond s call).2).1,
        (respondAll rest (respond s call).2).2)

variable {respond}

theorem respondAll_invariant {P : σ → Prop} (hP : ∀ s call, P s → P (respond s call).2) {s : σ}
    (h : P s) (calls : List ι) : P (respondAll respond calls s).2 := by
  induction calls generalizing s with
  | nil => exact h
  | cons call rest ih => exact ih (hP s call h)

/-- States that no call tells apart, and that stay so, are not told apart by any calls. -/
theorem respondAll_of_indistinct {R : σ → σ → Prop}
    (hR : ∀ s s' call, R s s' →
      (respond s call).1 = (respond s' call).1 ∧ R (respond s call).2 (respond s' call).2)
    {s s' : σ} (h : R s s') (calls : List ι) :
    (respondAll respond calls s).1 = (respondAll respond calls s').1 ∧
      R (respondAll respond calls s).2 (respondAll respond calls s').2 := by
  induction calls generalizing s s' with
  | nil => exact ⟨rfl, h⟩
  | cons call rest ih =>
    obtain ⟨hreply, hnext⟩ := hR s s' call h
    obtain ⟨hreplies, hlast⟩ := ih hnext
    exact ⟨List.cons_eq_cons.2 ⟨hreply, hreplies⟩, hlast⟩

theorem respondAll_count (counter : σ → Nat) {marks : ρ → Bool}
    (hcount : ∀ s call,
      counter (respond s call).2 = counter s + (marks (respond s call).1).toNat)
    (calls : List ι) (s : σ) :
    counter (respondAll respond calls s).2 =
      counter s + (respondAll respond calls s).1.countP marks := by
  induction calls generalizing s with
  | nil => rfl
  | cons call rest ih =>
    rw [respondAll, ih, hcount, List.countP_cons]
    cases marks (respond s call).1 <;> simp
    omega

end Responder
