import Mathlib

/-! # Substring search by byte offset

Text is a list of characters; a byte offset is the UTF-8 length of the characters
before it. UTF-8 is self-synchronising, so searching characters finds what a byte
search finds.
-/

namespace TextSearch

/-- UTF-8 length. -/
def charsLen : List Char → Nat
  | [] => 0
  | c :: rest => c.utf8Size + charsLen rest

/-- Byte offset of the first occurrence of `pattern`. -/
def findChars (pattern : List Char) : List Char → Option Nat
  | [] => if pattern.isEmpty then some 0 else none
  | c :: rest =>
      if pattern.isPrefixOf (c :: rest) then some 0
      else (findChars pattern rest).map (c.utf8Size + ·)

/-- `text.len()`. -/
def byteLen (text : String) : Nat := charsLen text.toList

/-- `text.find(pattern)`. -/
def find (text pattern : String) : Option Nat := findChars pattern.toList text.toList

/-- `&text[..offset]`: the characters that lie wholly before a byte offset. -/
def takeBytes : Nat → List Char → List Char
  | _, [] => []
  | offset, c :: rest =>
      if c.utf8Size ≤ offset then c :: takeBytes (offset - c.utf8Size) rest else []

/-! ## Lengths of prefixes -/

theorem charsLen_append (text more : List Char) :
    charsLen (text ++ more) = charsLen text + charsLen more := by
  induction text with
  | nil => simp [charsLen]
  | cons c rest ih => rw [List.cons_append, charsLen, charsLen, ih, Nat.add_assoc]

theorem charsLen_eq_zero {text : List Char} : charsLen text = 0 ↔ text = [] := by
  cases text with
  | nil => simp [charsLen]
  | cons c rest =>
      have := c.utf8Size_pos
      simp only [charsLen, Nat.add_eq_zero_iff, reduceCtorEq, iff_false]
      omega

theorem charsLen_le_of_isPrefix {short long : List Char} (h : short <+: long) :
    charsLen short ≤ charsLen long := by
  obtain ⟨rest, rfl⟩ := h
  rw [charsLen_append]
  exact Nat.le_add_right _ _

/-- Offsets of a text are ordered like the characters they stand at. -/
theorem charsLen_take_lt {text : List Char} {j k : Nat} (hjk : j < k) (hk : k ≤ text.length) :
    charsLen (text.take j) < charsLen (text.take k) := by
  have hsplit : text.take k = text.take j ++ (text.take k).drop j := by
    conv_lhs => rw [← List.take_append_drop j (text.take k)]
    rw [List.take_take, min_eq_left hjk.le]
  have hne : charsLen ((text.take k).drop j) ≠ 0 := by
    rw [Ne, charsLen_eq_zero, List.drop_eq_nil_iff, List.length_take]
    omega
  rw [hsplit, charsLen_append]
  omega

theorem charsLen_take_le_iff {text : List Char} {j k : Nat} (hj : j ≤ text.length)
    (hk : k ≤ text.length) :
    charsLen (text.take j) ≤ charsLen (text.take k) ↔ j ≤ k := by
  constructor
  · intro h
    by_contra hkj
    exact absurd (charsLen_take_lt (Nat.lt_of_not_le hkj) hj) (Nat.not_lt.2 h)
  · intro h
    rcases Nat.lt_or_eq_of_le h with hlt | rfl
    · exact (charsLen_take_lt hlt hk).le
    · exact le_rfl

/-- At a character boundary, exactly the characters before it are taken. -/
theorem takeBytes_charsLen (short rest : List Char) :
    takeBytes (charsLen short) (short ++ rest) = short := by
  induction short with
  | nil =>
    cases rest with
    | nil => rfl
    | cons c rest =>
      have := c.utf8Size_pos
      rw [charsLen, List.nil_append, takeBytes, if_neg (by omega)]
  | cons c short ih =>
    rw [List.cons_append, charsLen, takeBytes, if_pos (Nat.le_add_right _ _),
      Nat.add_sub_cancel_left, ih]

/-! ## Occurrences -/

/-- `pattern` stands in `text` from its `k`-th character on. -/
def OccursAt (pattern text : List Char) (k : Nat) : Prop :=
  k ≤ text.length ∧ pattern <+: text.drop k

theorem occursAt_zero {pattern text : List Char} : OccursAt pattern text 0 ↔ pattern <+: text := by
  simp [OccursAt]

theorem occursAt_succ {pattern rest : List Char} {c : Char} {k : Nat} :
    OccursAt pattern (c :: rest) (k + 1) ↔ OccursAt pattern rest k := by
  simp [OccursAt]

/-- What stands in a prefix stands in the text. -/
theorem OccursAt.of_prefix {pattern short long : List Char} {k : Nat} (h : OccursAt pattern short k)
    (hlong : short <+: long) : OccursAt pattern long k := by
  obtain ⟨rest, rfl⟩ := hlong
  refine ⟨h.1.trans (by simp), h.2.trans ?_⟩
  rw [List.drop_append_of_le_length h.1]
  exact List.prefix_append _ _

theorem OccursAt.lt_length {pattern text : List Char} {k : Nat} (h : OccursAt pattern text k)
    (hne : pattern ≠ []) : k < text.length := by
  refine h.1.lt_of_ne fun heq => hne ?_
  have := h.2
  rwa [heq, List.drop_length, List.prefix_nil] at this

theorem findChars_eq_none {pattern text : List Char} :
    findChars pattern text = none ↔ ∀ k, ¬ OccursAt pattern text k := by
  induction text with
  | nil => cases pattern <;> simp [findChars, OccursAt]
  | cons c rest ih =>
    rw [findChars]
    constructor
    · intro h k hk
      split at h
      next => simp at h
      next hno =>
        rw [Option.map_eq_none_iff] at h
        cases k with
        | zero => exact hno (List.isPrefixOf_iff_prefix.2 (occursAt_zero.1 hk))
        | succ k => exact ih.1 h k (occursAt_succ.1 hk)
    · intro h
      rw [if_neg fun hp => h 0 (occursAt_zero.2 (List.isPrefixOf_iff_prefix.1 hp)),
        Option.map_eq_none_iff]
      exact ih.2 fun k hk => h (k + 1) (occursAt_succ.2 hk)

/-- A search returns the byte offset of the first occurrence. -/
theorem findChars_eq_some {pattern text : List Char} {offset : Nat}
    (h : findChars pattern text = some offset) :
    ∃ k, offset = charsLen (text.take k) ∧ OccursAt pattern text k ∧
      ∀ j < k, ¬ OccursAt pattern text j := by
  induction text generalizing offset with
  | nil =>
    rw [findChars, Option.ite_none_right_eq_some, Option.some.injEq, List.isEmpty_iff] at h
    obtain ⟨rfl, rfl⟩ := h
    exact ⟨0, rfl, by simp [OccursAt], by simp⟩
  | cons c rest ih =>
    rw [findChars] at h
    split at h
    next hp =>
      obtain rfl := Option.some.inj h
      exact ⟨0, rfl, occursAt_zero.2 (List.isPrefixOf_iff_prefix.1 hp), by simp⟩
    next hno =>
      obtain ⟨b, hb, rfl⟩ := Option.map_eq_some_iff.1 h
      obtain ⟨k, rfl, hk, hfirst⟩ := ih hb
      refine ⟨k + 1, by simp [charsLen], occursAt_succ.2 hk, fun j hj => ?_⟩
      cases j with
      | zero => exact fun h => hno (List.isPrefixOf_iff_prefix.2 (occursAt_zero.1 h))
      | succ j => exact fun h => hfirst j (Nat.lt_of_succ_lt_succ hj) (occursAt_succ.1 h)

end TextSearch
