import Mathlib

/-! # Autoregressive generation

One sequence on its own: tokens are fed at positions, the next token is a function
of what has been fed, and generation ends at a stop token or at a length.
-/

namespace Autoregressive

variable {α : Type}

/-! ## Feeding tokens at positions -/

/-- A token fed at a position replaces what was fed there and later. -/
def writeAt (fed : List α) (entry : α × Nat) : List α := fed.take entry.2 ++ [entry.1]

def writeAll (fed : List α) (entries : List (α × Nat)) : List α := entries.foldl writeAt fed

theorem writeAll_range' {fed tokens : List α} {start : Nat} (hstart : start ≤ fed.length)
    (hne : tokens ≠ []) :
    writeAll fed (tokens.zip (List.range' start tokens.length)) = fed.take start ++ tokens := by
  induction tokens generalizing fed start with
  | nil => exact absurd rfl hne
  | cons t rest ih =>
    have hlen : (fed.take start).length = start := by simpa using hstart
    rw [List.length_cons, List.range'_succ, List.zip_cons_cons, writeAll, List.foldl_cons]
    cases rest with
    | nil => simp [writeAt]
    | cons u rest =>
        have hnext : start + 1 ≤ (writeAt fed (t, start)).length := by simp [writeAt, hlen]
        have htake : (writeAt fed (t, start)).take (start + 1) = fed.take start ++ [t] := by
          rw [List.take_of_length_le (by simp [writeAt])]
          rfl
        have := ih hnext (by simp)
        rw [writeAll] at this
        rw [this, htake]
        simp

/-! ## The reference output -/

/-- At most `m` tokens, each the answer to all tokens before it, up to the first stop token. -/
def generate (next : List α → α) (isStop : α → Bool) : Nat → List α → List α
  | 0, _ => []
  | m + 1, fed =>
      if isStop (next fed) then [next fed]
      else next fed :: generate next isStop m (fed ++ [next fed])

variable {next : List α → α} {isStop : α → Bool}

def Answers (next : List α → α) (prompt out : List α) : Prop :=
  ∀ k : Nat, ∀ t : α, out[k]? = some t → t = next (prompt ++ out.take k)

theorem Answers.tail {prompt out : List α} {t : α} (h : Answers next prompt (t :: out)) :
    Answers next (prompt ++ [t]) out := by
  intro k u hu
  have := h (k + 1) u (by simpa using hu)
  simpa using this

theorem Answers.concat {prompt out : List α} (h : Answers next prompt out) :
    Answers next prompt (out ++ [next (prompt ++ out)]) := by
  intro k t ht
  rcases lt_trichotomy k out.length with hk | hk | hk
  · rw [List.getElem?_append_left hk] at ht
    rw [List.take_append_of_le_length hk.le]
    exact h k t ht
  · subst hk
    simpa [eq_comm] using ht
  · rw [List.getElem?_eq_none (by simpa using hk)] at ht
    simp at ht

/-- Tokens that answer, with no stop token before the last, begin the reference output. -/
theorem prefix_generate {m : Nat} {prompt out : List α} (h : Answers next prompt out)
    (hlen : out.length ≤ m) (hgo : ∀ t ∈ out.dropLast, isStop t = false) :
    out <+: generate next isStop m prompt := by
  induction out generalizing m prompt with
  | nil => exact List.nil_prefix
  | cons t out ih =>
    obtain ⟨m, rfl⟩ : ∃ n, m = n + 1 := ⟨m - 1, by rw [List.length_cons] at hlen; omega⟩
    obtain rfl : t = next prompt := by simpa using h 0 t (by simp)
    rw [generate]
    cases out with
    | nil =>
        split
        · exact List.prefix_refl _
        · simp
    | cons u out =>
        rw [if_neg (by rw [hgo _ (by simp)]; simp), List.cons_prefix_cons]
        exact ⟨rfl, ih h.tail (by simpa using hlen) fun x hx => hgo x (by simp [hx])⟩

/-- They are all of it when they end with a stop token or have the full length. -/
theorem eq_generate {m : Nat} {prompt out : List α} (h : Answers next prompt out)
    (hlen : out.length ≤ m) (hgo : ∀ t ∈ out.dropLast, isStop t = false)
    (hend : out.length = m ∨ ∃ t, out.getLast? = some t ∧ isStop t = true) :
    out = generate next isStop m prompt := by
  induction out generalizing m prompt with
  | nil =>
      rcases hend with hm | ⟨t, ht, -⟩
      · rw [← hm]
        rfl
      · simp at ht
  | cons t out ih =>
    obtain ⟨m, rfl⟩ : ∃ n, m = n + 1 := ⟨m - 1, by rw [List.length_cons] at hlen; omega⟩
    obtain rfl : t = next prompt := by simpa using h 0 t (by simp)
    rw [generate]
    cases out with
    | nil =>
        split
        next => rfl
        next hstop =>
          rcases hend with hm | ⟨t, ht, hs⟩
          · obtain rfl : m = 0 := by simpa using hm.symm
            rfl
          · simp only [List.getLast?_singleton, Option.some.injEq] at ht
            exact absurd (ht ▸ hs) hstop
    | cons u out =>
        rw [if_neg (by rw [hgo _ (by simp)]; simp)]
        refine congrArg _ (ih h.tail (by simpa using hlen) (fun x hx => hgo x (by simp [hx])) ?_)
        simpa using hend

/-- They are not all of it while there is room and no stop token among them. -/
theorem length_lt_generate {m : Nat} {prompt out : List α} (h : Answers next prompt out)
    (hlen : out.length < m) (hgo : ∀ t ∈ out, isStop t = false) :
    out.length < (generate next isStop m prompt).length := by
  have hanswers := h.concat
  have hinitial : out ++ [next (prompt ++ out)] <+: generate next isStop m prompt :=
    prefix_generate hanswers (by simpa using hlen) (by simpa using hgo)
  have := hinitial.length_le
  simpa using this

/-! ## Answers that may be missing -/

section Missing

variable {next : List α → Option α} {isStop : α → Bool} {prompt out : List α}

/-- At most `m` tokens up to the first stop token; nothing if an answer is missing. -/
def generate? (next : List α → Option α) (isStop : α → Bool) : Nat → List α → Option (List α)
  | 0, _ => some []
  | m + 1, fed =>
      (next fed).bind fun t =>
        if isStop t then some [t] else (generate? next isStop m (fed ++ [t])).map (t :: ·)

def Chooses (next : List α → Option α) (prompt out : List α) : Prop :=
  ∀ k : Nat, ∀ t : α, out[k]? = some t → next (prompt ++ out.take k) = some t

theorem Chooses.tail {t : α} (h : Chooses next prompt (t :: out)) :
    Chooses next (prompt ++ [t]) out := by
  intro k u hu
  have := h (k + 1) u (by simpa using hu)
  simpa using this

theorem Chooses.concat {t : α} (h : Chooses next prompt out) (ht : next (prompt ++ out) = some t) :
    Chooses next prompt (out ++ [t]) := by
  intro k u hu
  rcases lt_trichotomy k out.length with hk | rfl | hk
  · rw [List.getElem?_append_left hk] at hu
    rw [List.take_append_of_le_length hk.le]
    exact h k u hu
  · rw [List.getElem?_concat_length] at hu
    rw [List.take_left, ht]
    exact hu
  · rw [List.getElem?_eq_none (by simpa using hk)] at hu
    cases hu

/-- Chosen tokens that go on up to a stop token or the full length are all of them. -/
theorem generate?_eq_some {m : Nat} (h : Chooses next prompt out) (hlen : out.length ≤ m)
    (hgo : ∀ t ∈ out.dropLast, isStop t = false)
    (hend : out.length = m ∨ ∃ t, out.getLast? = some t ∧ isStop t = true) :
    generate? next isStop m prompt = some out := by
  induction out generalizing m prompt with
  | nil =>
      rcases hend with hm | ⟨t, ht, -⟩
      · rw [← hm]
        rfl
      · simp at ht
  | cons t out ih =>
    obtain ⟨m, rfl⟩ : ∃ n, m = n + 1 := ⟨m - 1, by rw [List.length_cons] at hlen; omega⟩
    have hfirst : next prompt = some t := by simpa using h 0 t (by simp)
    rw [generate?, hfirst, Option.bind_some]
    cases out with
    | nil =>
        split
        next => rfl
        next hstop =>
          rcases hend with hm | ⟨t, ht, hs⟩
          · obtain rfl : m = 0 := by simpa using hm.symm
            rfl
          · simp only [List.getLast?_singleton, Option.some.injEq] at ht
            exact absurd (ht ▸ hs) hstop
    | cons u out =>
        rw [if_neg (by rw [hgo _ (by simp)]; simp)]
        rw [ih h.tail (by simpa using hlen) (fun x hx => hgo x (by simp [hx])) (by simpa using hend)]
        rfl

end Missing

end Autoregressive
