import Mathlib

/-! # Maps keyed by numeric identifiers

`Std.ExtTreeMap` at natural-number keys, iterated in ascending key order. The
lemmas below compare enumerations before and after an update up to permutation,
which is what sums and counts over the stored values need.
-/

abbrev IdMap (β : Type) := Std.ExtTreeMap Nat β

namespace IdMap

variable {β : Type} {m : IdMap β} {k a : Nat} {v w : β}

/-- The stored values, in ascending key order. -/
def vals (m : IdMap β) : List β := m.toList.map Prod.snd

theorem get_insert (m : IdMap β) (k a : Nat) (v : β) :
    (m.insert k v)[a]? = if k = a then some v else m[a]? := by
  simp [Std.ExtTreeMap.getElem?_insert]

theorem get_erase (m : IdMap β) (k a : Nat) :
    (m.erase k)[a]? = if k = a then none else m[a]? := by
  simp [Std.ExtTreeMap.getElem?_erase]

theorem get_insert_ne (h : k ≠ a) : (m.insert k v)[a]? = m[a]? := by simp [get_insert, h]

theorem get_erase_ne (h : k ≠ a) : (m.erase k)[a]? = m[a]? := by simp [get_erase, h]

theorem contains_eq_true_iff : m.contains k = true ↔ ∃ v, m[k]? = some v := by
  rw [Std.ExtTreeMap.contains_eq_isSome_getElem?, Option.isSome_iff_exists]

theorem contains_eq_false_iff : m.contains k = false ↔ m[k]? = none := by
  rw [Std.ExtTreeMap.contains_eq_isSome_getElem?, Option.isSome_eq_false_iff,
    Option.isNone_iff_eq_none]

theorem eq_empty_iff : m = ∅ ↔ ∀ k : Nat, m[k]? = none := by
  constructor
  · rintro rfl k
    simp
  · intro h
    apply Std.ExtTreeMap.ext_getElem?
    intro k
    simp [h k]

theorem toList_nodup (m : IdMap β) : m.toList.Nodup := by
  refine (Std.ExtTreeMap.distinct_keys_toList (t := m)).imp ?_
  rintro p q hne rfl
  exact hne (by simp)

theorem keys_nodup (m : IdMap β) : (m.toList.map Prod.fst).Nodup := by
  rw [List.Nodup, List.pairwise_map]
  exact (Std.ExtTreeMap.distinct_keys_toList (t := m)).imp fun h heq => h (by simp [heq])

theorem mem_vals : v ∈ vals m ↔ ∃ k : Nat, m[k]? = some v := by
  simp only [vals, List.mem_map, Prod.exists, exists_eq_right,
    Std.ExtTreeMap.mem_toList_iff_getElem?_eq_some]

@[simp] theorem vals_empty : vals (∅ : IdMap β) = [] := by
  rw [List.eq_nil_iff_forall_not_mem]
  intro v hv
  obtain ⟨k, hk⟩ := mem_vals.1 hv
  simp at hk

@[simp] theorem keys_empty : (∅ : IdMap β).keys = [] := Std.ExtTreeMap.keys_eq_nil_iff.2 rfl

/-! ## Enumerations after an update -/

theorem toList_insert_perm (h : m[k]? = none) :
    ((m.insert k v).toList).Perm ((k, v) :: m.toList) := by
  have hk : (k, v) ∉ m.toList := by simp [h]
  rw [List.perm_ext_iff_of_nodup (toList_nodup _) (List.nodup_cons.2 ⟨hk, toList_nodup m⟩)]
  rintro ⟨a, b⟩
  by_cases ha : k = a
  · subst ha
    simp [h, eq_comm]
  · have hne : ¬ a = k := fun h => ha h.symm
    simp [get_insert, ha, hne]

theorem toList_erase_perm (h : m[k]? = some v) :
    m.toList.Perm ((k, v) :: (m.erase k).toList) := by
  have hk : (k, v) ∉ (m.erase k).toList := by simp
  rw [List.perm_ext_iff_of_nodup (toList_nodup _) (List.nodup_cons.2 ⟨hk, toList_nodup _⟩)]
  rintro ⟨a, b⟩
  by_cases ha : k = a
  · subst ha
    simp [h, eq_comm]
  · have hne : ¬ a = k := fun h => ha h.symm
    simp [get_erase, ha, hne]

theorem erase_insert (m : IdMap β) (k : Nat) (v : β) : (m.insert k v).erase k = m.erase k := by
  apply Std.ExtTreeMap.ext_getElem?
  intro a
  simp only [get_erase, get_insert]
  split <;> rfl

/-- Replacing a stored value removes it and inserts the new one. -/
theorem toList_replace_perm : ((m.insert k w).toList).Perm ((k, w) :: (m.erase k).toList) := by
  have h := toList_erase_perm (m := m.insert k w) (k := k) (v := w) (by simp)
  rwa [erase_insert] at h

theorem vals_insert_perm (h : m[k]? = none) : (vals (m.insert k v)).Perm (v :: vals m) :=
  (toList_insert_perm h).map Prod.snd

theorem vals_erase_perm (h : m[k]? = some v) : (vals m).Perm (v :: vals (m.erase k)) :=
  (toList_erase_perm h).map Prod.snd

theorem vals_replace_perm : (vals (m.insert k w)).Perm (w :: vals (m.erase k)) :=
  toList_replace_perm.map Prod.snd

theorem keys_insert_perm (h : m[k]? = none) : (m.insert k v).keys.Perm (k :: m.keys) := by
  simpa [Std.ExtTreeMap.map_fst_toList_eq_keys] using (toList_insert_perm (v := v) h).map Prod.fst

theorem keys_erase_perm (h : m[k]? = some v) : m.keys.Perm (k :: (m.erase k).keys) := by
  simpa [Std.ExtTreeMap.map_fst_toList_eq_keys] using (toList_erase_perm h).map Prod.fst

theorem keys_replace_perm (h : m[k]? = some v) : (m.insert k w).keys.Perm m.keys := by
  have hnew := (toList_replace_perm (m := m) (k := k) (w := w)).map Prod.fst
  simp only [List.map_cons, Std.ExtTreeMap.map_fst_toList_eq_keys] at hnew
  exact hnew.trans (keys_erase_perm h).symm

theorem mem_keys : k ∈ m.keys ↔ ∃ v, m[k]? = some v := by
  rw [Std.ExtTreeMap.mem_keys, Std.ExtTreeMap.mem_iff_isSome_getElem?, Option.isSome_iff_exists]

theorem size_insert_new (h : m[k]? = none) : (m.insert k v).size = m.size + 1 := by
  rw [← Std.ExtTreeMap.length_toList, (toList_insert_perm h).length_eq, List.length_cons,
    Std.ExtTreeMap.length_toList]

theorem size_erase_old (h : m[k]? = some v) : m.size = (m.erase k).size + 1 := by
  rw [← Std.ExtTreeMap.length_toList, (toList_erase_perm h).length_eq, List.length_cons,
    Std.ExtTreeMap.length_toList]

theorem size_insert_old (h : m[k]? = some v) : (m.insert k w).size = m.size := by
  rw [size_erase_old h, ← Std.ExtTreeMap.length_toList, toList_replace_perm.length_eq,
    List.length_cons, Std.ExtTreeMap.length_toList]

theorem length_vals (m : IdMap β) : (vals m).length = m.size := by
  simp [vals]

theorem size_le_of_keys {l : List Nat} (h : ∀ (k : Nat) (v : β), m[k]? = some v → k ∈ l) :
    m.size ≤ l.length := by
  rw [← Std.ExtTreeMap.length_keys]
  have hnodup : m.keys.Nodup := by
    rw [← Std.ExtTreeMap.map_fst_toList_eq_keys]
    exact keys_nodup m
  refine (hnodup.subperm fun k hk => ?_).length_le
  obtain ⟨v, hv⟩ := mem_keys.1 hk
  exact h k v hv

theorem size_eq_zero_iff : m.size = 0 ↔ m = ∅ := Std.ExtTreeMap.eq_empty_iff_size_eq_zero.symm

theorem mem_map_toList {κ : Type} (f : β → κ) {c : κ} :
    (k, c) ∈ m.toList.map (fun p => (p.1, f p.2)) ↔ m[k]?.map f = some c := by
  rw [List.mem_map, Option.map_eq_some_iff]
  constructor
  · rintro ⟨⟨_, b⟩, hb, heq⟩
    obtain ⟨rfl, rfl⟩ := Prod.mk.inj heq
    exact ⟨b, Std.ExtTreeMap.mem_toList_iff_getElem?_eq_some.1 hb, rfl⟩
  · rintro ⟨b, hb, rfl⟩
    exact ⟨(k, b), Std.ExtTreeMap.mem_toList_iff_getElem?_eq_some.2 hb, rfl⟩

/-- Maps that say the same of each key have the same values, up to their order. -/
theorem map_vals_perm {γ κ : Type} {m' : IdMap γ} {f : β → κ} {g : γ → κ}
    (h : ∀ k : Nat, m[k]?.map f = m'[k]?.map g) : ((vals m).map f).Perm ((vals m').map g) := by
  have hnodup {α : Type} (m : IdMap α) (f : α → κ) :
      (m.toList.map fun p => (p.1, f p.2)).Nodup := by
    refine List.Nodup.of_map Prod.fst ?_
    rw [List.map_map]
    exact keys_nodup m
  have hperm : (m.toList.map fun p => (p.1, f p.2)).Perm
      (m'.toList.map fun p => (p.1, g p.2)) := by
    rw [List.perm_ext_iff_of_nodup (hnodup m f) (hnodup m' g)]
    rintro ⟨k, c⟩
    rw [mem_map_toList, mem_map_toList, h k]
  simpa [vals, Function.comp_def] using hperm.map Prod.snd

/-! ## Association lists -/

section Association

variable {κ : Type} [BEq κ] [LawfulBEq κ] {a k : κ}

theorem lookup_cons_ne {l : List (κ × β)} (h : k ≠ a) :
    List.lookup a ((k, v) :: l) = l.lookup a := by
  simp [List.lookup_cons, beq_false_of_ne h.symm]

theorem lookup_eq_none_of_not_mem {l : List (κ × β)} (h : a ∉ l.map Prod.fst) :
    l.lookup a = none := by
  rw [List.lookup_eq_none_iff]
  intro p hp
  have hne : a ≠ p.1 := fun heq => h (heq ▸ List.mem_map_of_mem hp)
  simp [hne]

theorem lookup_eq_some_of_mem {l : List (κ × β)} (hnodup : (l.map Prod.fst).Nodup)
    (h : (a, v) ∈ l) : l.lookup a = some v := by
  induction l with
  | nil => simp at h
  | cons p l ih =>
    obtain ⟨k, w⟩ := p
    rw [List.map_cons, List.nodup_cons] at hnodup
    rcases List.mem_cons.1 h with heq | h
    · obtain ⟨rfl, rfl⟩ := Prod.mk.inj heq
      exact List.lookup_cons_self
    · have hmem : a ∈ l.map Prod.fst := List.mem_map.2 ⟨(a, v), h, rfl⟩
      have hne : k ≠ a := fun heq => hnodup.1 (heq ▸ hmem)
      rw [lookup_cons_ne hne, ih hnodup.2 h]

theorem mem_of_lookup_eq_some {l : List (κ × β)} (h : l.lookup a = some v) : (a, v) ∈ l := by
  obtain ⟨l₁, l₂, hl, -⟩ := List.lookup_eq_some_iff.1 h
  simp [hl]

end Association

private theorem mem_map_snd {γ : Type} {l : List (Nat × β)} (hnodup : (l.map Prod.fst).Nodup)
    (f : β → γ) {c : γ} :
    (a, c) ∈ l.map (fun p => (p.1, f p.2)) ↔ (l.lookup a).map f = some c := by
  rw [List.mem_map, Option.map_eq_some_iff]
  constructor
  · rintro ⟨⟨_, b⟩, hb, heq⟩
    obtain ⟨rfl, rfl⟩ := Prod.mk.inj heq
    exact ⟨b, lookup_eq_some_of_mem hnodup hb, rfl⟩
  · rintro ⟨b, hb, rfl⟩
    exact ⟨(a, b), mem_of_lookup_eq_some hb, rfl⟩

/-- Association lists that say the same of each key differ in their order only. -/
theorem map_perm_of_lookup {γ : Type} {l l' : List (Nat × β)} (hnodup : (l.map Prod.fst).Nodup)
    (hnodup' : (l'.map Prod.fst).Nodup) (f : β → γ)
    (h : ∀ k : Nat, (l.lookup k).map f = (l'.lookup k).map f) :
    (l.map fun p => (p.1, f p.2)).Perm (l'.map fun p => (p.1, f p.2)) := by
  have hkeys (l : List (Nat × β)) (hl : (l.map Prod.fst).Nodup) :
      (l.map fun p => (p.1, f p.2)).Nodup := by
    refine List.Nodup.of_map Prod.fst ?_
    rwa [List.map_map]
  rw [List.perm_ext_iff_of_nodup (hkeys l hnodup) (hkeys l' hnodup')]
  rintro ⟨a, c⟩
  rw [mem_map_snd hnodup, mem_map_snd hnodup', h a]

end IdMap
