import Mathlib.Data.List.Nodup

/-! # Logs with labelled entries

A log that several parties write to. The entries under one label are what that party
wrote, in order, however the others interleave.
-/

namespace LabelledLog

variable {κ α β : Type} [DecidableEq κ] {k : κ} {a : α} {log : List (κ × α)}

/-- The entries under one label. -/
def under (k : κ) (log : List (κ × α)) : List α :=
  log.filterMap fun p => if p.1 = k then some p.2 else none

@[simp] theorem under_nil (k : κ) : under k ([] : List (κ × α)) = [] := rfl

@[simp] theorem under_append (k : κ) (log more : List (κ × α)) :
    under k (log ++ more) = under k log ++ under k more := List.filterMap_append

theorem mem_under : a ∈ under k log ↔ (k, a) ∈ log := by
  rw [under, List.mem_filterMap]
  constructor
  · rintro ⟨⟨k', a'⟩, hp, h⟩
    split at h
    next hk => cases h; exact hk ▸ hp
    next => cases h
  · exact fun h => ⟨(k, a), h, if_pos rfl⟩

/-- Entries may be rewritten, label by label. -/
theorem under_map (f : κ → α → β) (k : κ) (log : List (κ × α)) :
    under k (log.map fun p => (p.1, f p.1 p.2)) = (under k log).map (f k) := by
  rw [under, under, List.filterMap_map, List.map_filterMap]
  refine List.filterMap_congr fun p _ => ?_
  by_cases hk : p.1 = k <;> simp [hk]

theorem under_label (k k' : κ) (entries : List α) :
    under k (entries.map (Prod.mk k')) = if k' = k then entries else [] := by
  rw [under, List.filterMap_map]
  by_cases h : k' = k <;> simp [h]

theorem under_singleton (k k' : κ) (a : α) : under k [(k', a)] = if k' = k then [a] else [] :=
  under_label k k' [a]

theorem under_eq_nil (h : k ∉ log.map Prod.fst) : under k log = [] := by
  rw [under, List.filterMap_eq_nil_iff]
  intro p hp
  have hne : p.1 ≠ k := by
    rintro rfl
    exact h (List.mem_map_of_mem hp)
  exact if_neg hne

/-- Some of the entries, each as something else. -/
theorem under_filterMap (g : α → Option β) (k : κ) (log : List (κ × α)) :
    under k (log.filterMap fun p => (g p.2).map (Prod.mk p.1)) = (under k log).filterMap g := by
  rw [under, under, List.filterMap_filterMap, List.filterMap_filterMap]
  refine List.filterMap_congr fun p _ => ?_
  by_cases hk : p.1 = k <;> cases hg : g p.2 <;> simp [hk, hg]

theorem length_under (k : κ) (log : List (κ × α)) :
    (under k log).length = (log.map Prod.fst).count k := by
  induction log with
  | nil => rfl
  | cons p rest ih =>
    rw [← List.singleton_append, under_append, List.length_append, ih, List.map_append,
      List.count_append]
    obtain ⟨k', a⟩ := p
    by_cases hk : k' = k <;> simp [under_singleton, hk]

/-- A log with at most one entry under each label. -/
theorem nodup_of_length_under_le (h : ∀ k, (under k log).length ≤ 1) :
    (log.map Prod.fst).Nodup :=
  List.nodup_iff_count_le_one.2 fun k => length_under k log ▸ h k

section Items

variable {ι : Type} {items : List ι} {key : ι → κ} {f : ι → List α} {x : ι}

/-- Of items with distinct labels only one has entries under its label. -/
theorem under_flatMap_of_mem (hnodup : (items.map key).Nodup) (hx : x ∈ items) :
    under (key x) (items.flatMap fun y => (f y).map (Prod.mk (key y))) = f x := by
  induction items with
  | nil => cases hx
  | cons y rest ih =>
    obtain ⟨hy, hrest⟩ := List.nodup_cons.1 hnodup
    rw [List.flatMap_cons, under_append, under_label]
    rcases List.mem_cons.1 hx with rfl | hx
    · rw [if_pos rfl, under_eq_nil, List.append_nil]
      intro hmem
      obtain ⟨_, hp, heq⟩ := List.mem_map.1 hmem
      obtain ⟨z, hz, hp⟩ := List.mem_flatMap.1 hp
      obtain ⟨_, -, rfl⟩ := List.mem_map.1 hp
      exact hy (List.mem_map.2 ⟨z, hz, heq⟩)
    · have hne : key y ≠ key x := fun heq => hy (heq ▸ List.mem_map_of_mem hx)
      rw [if_neg hne, ih hrest hx, List.nil_append]

theorem under_flatMap_of_not_mem (hk : k ∉ items.map key) :
    under k (items.flatMap fun y => (f y).map (Prod.mk (key y))) = [] := by
  refine under_eq_nil fun hmem => ?_
  obtain ⟨_, hp, rfl⟩ := List.mem_map.1 hmem
  obtain ⟨z, hz, hp⟩ := List.mem_flatMap.1 hp
  obtain ⟨_, -, rfl⟩ := List.mem_map.1 hp
  exact hk (List.mem_map_of_mem hz)

end Items

/-- A label that occurs once has one entry. -/
theorem under_of_nodup (hnodup : (log.map Prod.fst).Nodup) (h : (k, a) ∈ log) :
    under k log = [a] := by
  have hone := under_flatMap_of_mem (f := fun p : κ × α => [p.2]) hnodup h
  rwa [show (log.flatMap fun p => [p.2].map (Prod.mk p.1)) = log by simp [List.flatMap_singleton']]
    at hone

/-- Logs with the same entries under each label have the same entries. -/
theorem perm_of_under [DecidableEq α] {more : List (κ × α)} (h : ∀ k, under k log = under k more) :
    log.Perm more := by
  have hcount (log : List (κ × α)) (k : κ) (a : α) :
      log.count (k, a) = (under k log).count a := by
    induction log with
    | nil => rfl
    | cons p log ih =>
      have hunder : under k (p :: log) = (if p.1 = k then [p.2] else []) ++ under k log := by
        rw [← under_singleton, ← under_append]
        rfl
      rw [List.count_cons, ih, hunder, List.count_append, Nat.add_comm]
      by_cases hk : p.1 = k
      · simp [hk, List.count_singleton, Prod.ext_iff]
      · simp [hk, Prod.ext_iff]
  rw [List.perm_iff_count]
  rintro ⟨k, a⟩
  rw [hcount, hcount, h k]

end LabelledLog
