import PagedServing.Library.IdMap

/-! # A finite pool and its holders

The units `0, …, n - 1` of a resource are either on a free list or held, once, by
one holder. `units` reads the held units off whatever a holder stores.
-/

/-- Free list and holdings partition the first `n` indices. -/
structure Ledger {β : Type} (units : β → List Nat) (n : Nat) (free : List Nat)
    (holdings : IdMap β) : Prop where
  perm : (free ++ (IdMap.vals holdings).flatMap units).Perm (List.range n)

namespace Ledger

open scoped List

variable {β : Type} {units : β → List Nat} {n k : Nat} {free rest : List Nat}
  {holdings : IdMap β} {b c : β}

theorem new (units : β → List Nat) (n : Nat) : Ledger units n (List.range n) ∅ :=
  ⟨by simp⟩

/-! ## Operations -/

/-- A new holder takes the head of the free list. -/
theorem enter (h : Ledger units n (units b ++ free) holdings) (hk : holdings[k]? = none) :
    Ledger units n free (holdings.insert k b) := by
  refine ⟨List.Perm.trans ?_ h.perm⟩
  have hvals := (IdMap.vals_insert_perm (v := b) hk).flatMap_right units
  rw [List.flatMap_cons] at hvals
  calc free ++ (IdMap.vals (holdings.insert k b)).flatMap units
      ~ free ++ (units b ++ (IdMap.vals holdings).flatMap units) := hvals.append_left _
    _ = (free ++ units b) ++ (IdMap.vals holdings).flatMap units := by simp
    _ ~ units b ++ free ++ (IdMap.vals holdings).flatMap units :=
        List.perm_append_comm.append_right _

/-- The units of a holder, followed by those of all others. -/
theorem split (units : β → List Nat) (hk : holdings[k]? = some b) :
    ((IdMap.vals holdings).flatMap units).Perm
      (units b ++ (IdMap.vals (holdings.erase k)).flatMap units) := by
  simpa using (IdMap.vals_erase_perm hk).flatMap_right units

/-- A holder takes one more unit, the head of the free list. -/
theorem extend {i : Nat} (h : Ledger units n (i :: free) holdings)
    (hk : holdings[k]? = some b) (hc : units c = units b ++ [i]) :
    Ledger units n free (holdings.insert k c) := by
  refine ⟨List.Perm.trans ?_ h.perm⟩
  have hvals := (IdMap.vals_replace_perm (m := holdings) (k := k) (w := c)).flatMap_right units
  have hold := split units hk
  rw [List.flatMap_cons, hc] at hvals
  calc free ++ (IdMap.vals (holdings.insert k c)).flatMap units
      ~ free ++ (units b ++ [i] ++ (IdMap.vals (holdings.erase k)).flatMap units) :=
        hvals.append_left _
    _ = (free ++ units b) ++ i :: (IdMap.vals (holdings.erase k)).flatMap units := by simp
    _ ~ i :: (free ++ units b ++ (IdMap.vals (holdings.erase k)).flatMap units) :=
        List.perm_middle
    _ = i :: (free ++ (units b ++ (IdMap.vals (holdings.erase k)).flatMap units)) := by simp
    _ ~ i :: (free ++ (IdMap.vals holdings).flatMap units) := (hold.symm.append_left free).cons i

/-- A holder leaves and its units go to the end of the free list. -/
theorem leave (h : Ledger units n free holdings) (hk : holdings[k]? = some b) :
    Ledger units n (free ++ units b) (holdings.erase k) := by
  refine ⟨List.Perm.trans ?_ h.perm⟩
  rw [List.append_assoc]
  exact (split units hk).symm.append_left free

/-- Replacing what a holder stores by something with the same units. -/
theorem replace (h : Ledger units n free holdings) (hk : holdings[k]? = some b)
    (hc : units c = units b) : Ledger units n free (holdings.insert k c) := by
  refine ⟨List.Perm.trans ?_ h.perm⟩
  have hvals := (IdMap.vals_replace_perm (m := holdings) (k := k) (w := c)).flatMap_right units
  rw [List.flatMap_cons, hc] at hvals
  exact (hvals.trans (split units hk).symm).append_left free

/-! ## What a partition says about single units -/

theorem nodup (h : Ledger units n free holdings) :
    (free ++ (IdMap.vals holdings).flatMap units).Nodup :=
  h.perm.nodup_iff.2 List.nodup_range

theorem free_nodup (h : Ledger units n free holdings) : free.Nodup :=
  (List.nodup_append.1 h.nodup).1

theorem units_nodup (h : Ledger units n free holdings) (hk : holdings[k]? = some b) :
    (units b).Nodup := by
  have hall := (List.nodup_append.1 h.nodup).2.1
  exact (List.nodup_append.1 ((split units hk).nodup_iff.1 hall)).1

theorem mem_units {i : Nat} (hk : holdings[k]? = some b) (hi : i ∈ units b) :
    i ∈ (IdMap.vals holdings).flatMap units :=
  List.mem_flatMap.2 ⟨b, IdMap.mem_vals.2 ⟨k, hk⟩, hi⟩

theorem disjoint_free (h : Ledger units n free holdings) (hk : holdings[k]? = some b) :
    (units b).Disjoint free := by
  intro i hi hfree
  exact (List.nodup_append.1 h.nodup).2.2 i hfree i (mem_units hk hi) rfl

theorem disjoint {k' : Nat} (h : Ledger units n free holdings) (hk : holdings[k]? = some b)
    (hk' : holdings[k']? = some c) (hne : k ≠ k') : (units b).Disjoint (units c) := by
  intro i hi hi'
  have hall := (List.nodup_append.1 h.nodup).2.1
  have hsplit := (List.nodup_append.1 ((split units hk).nodup_iff.1 hall)).2.2
  have hc : (holdings.erase k)[k']? = some c := by rw [IdMap.get_erase_ne hne, hk']
  exact hsplit i hi i (mem_units hc hi') rfl

theorem lt_of_mem_units {i : Nat} (h : Ledger units n free holdings)
    (hk : holdings[k]? = some b) (hi : i ∈ units b) : i < n := by
  have := h.perm.mem_iff.1 (List.mem_append_right free (mem_units hk hi))
  simpa using this

theorem length (h : Ledger units n free holdings) :
    free.length + ((IdMap.vals holdings).map fun b => (units b).length).sum = n := by
  have := h.perm.length_eq
  rwa [List.length_append, List.length_flatMap, List.length_range] at this

theorem length_units_le (h : Ledger units n free holdings) (hk : holdings[k]? = some b) :
    (units b).length + free.length ≤ n := by
  have hlen := h.length
  have hsplit := (split units hk).length_eq
  simp only [List.length_append, List.length_flatMap] at hsplit
  omega

/-- The holdings determine the free list up to its order. -/
theorem free_perm {free' : List Nat} (h : Ledger units n free holdings)
    (h' : Ledger units n free' holdings) : free.Perm free' :=
  (List.perm_append_right_iff _).1 (h.perm.trans h'.perm.symm)

end Ledger
