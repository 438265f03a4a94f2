import PagedServing.Executor.Rows

/-! # Contiguous reference model

A transformer whose layers each own one list of keys and values, fed one token at a
time. A paged forward pass over a table that stores those lists gives the same hidden
states and stores the longer lists.
-/

namespace PagedServing

variable {V : Type}

/-- For each layer, the key and value of every token so far. -/
abbrev KvLists (V : Type) := Nat → List (V × V)

namespace CpuModel

variable (m : CpuModel V)

def referenceLayer (pos : Nat) (hidden : V) (layerIdx : Nat) (kv : KvLists V) :
    Option (V × KvLists V) :=
  let kvs := kv layerIdx ++ [(m.key layerIdx hidden pos, m.value layerIdx hidden)]
  match m.attend (m.query layerIdx hidden pos) kvs with
  | none => none
  | some out => some (m.transform layerIdx hidden out, Function.update kv layerIdx kvs)

def referenceLayers (pos : Nat) : List Nat → V → KvLists V → Option (V × KvLists V)
  | [], hidden, kv => some (hidden, kv)
  | layerIdx :: rest, hidden, kv =>
      match m.referenceLayer pos hidden layerIdx kv with
      | none => none
      | some (hidden, kv) => referenceLayers pos rest hidden kv

def referenceFrom (vocabSize : Nat) : Nat → List TokenId → V → KvLists V → Option (V × KvLists V)
  | _, [], hidden, kv => some (hidden, kv)
  | pos, token :: rest, _, kv =>
      match m.referenceLayers pos (List.range numLayers)
          (m.embedding (min token (vocabSize - 1))) kv with
      | none => none
      | some (hidden, kv) => referenceFrom vocabSize (pos + 1) rest hidden kv

/-- The last hidden state and the lists after `tokens`, from nothing; `none` when a
softmax on the way has no normaliser. -/
def reference (vocabSize : Nat) (tokens : List TokenId) : Option (V × KvLists V) :=
  m.referenceFrom vocabSize 0 tokens m.zeroHidden fun _ => []

variable {m} {vocabSize pos layerIdx : Nat} {hidden hidden' : V} {kv kv' : KvLists V}
  {layers : List Nat} {tokens more : List TokenId}

theorem referenceLayer_eq_some (h : m.referenceLayer pos hidden layerIdx kv = some (hidden', kv')) :
    kv' = Function.update kv layerIdx
      (kv layerIdx ++ [(m.key layerIdx hidden pos, m.value layerIdx hidden)]) := by
  rw [referenceLayer] at h
  split at h
  next => cases h
  next => exact (Prod.mk.inj (Option.some.inj h)).2.symm

theorem referenceLayer_length (h : m.referenceLayer pos hidden layerIdx kv = some (hidden', kv')) :
    (kv' layerIdx).length = (kv layerIdx).length + 1 := by
  simp [referenceLayer_eq_some h]

theorem referenceLayer_ne (h : m.referenceLayer pos hidden layerIdx kv = some (hidden', kv'))
    {other : Nat} (hne : other ≠ layerIdx) : kv' other = kv other := by
  simp [referenceLayer_eq_some h, hne]

theorem prefix_referenceLayer
    (h : m.referenceLayer pos hidden layerIdx kv = some (hidden', kv')) (other : Nat) :
    kv other <+: kv' other := by
  by_cases heq : other = layerIdx
  · subst heq
    rw [referenceLayer_eq_some h, Function.update_self]
    exact List.prefix_append ..
  · rw [referenceLayer_ne h heq]

theorem prefix_referenceLayers
    (h : m.referenceLayers pos layers hidden kv = some (hidden', kv')) (other : Nat) :
    kv other <+: kv' other := by
  induction layers generalizing hidden kv with
  | nil =>
      cases h
      exact List.prefix_rfl
  | cons layerIdx rest ih =>
      rw [referenceLayers] at h
      cases hlayer : m.referenceLayer pos hidden layerIdx kv with
      | none => simp [hlayer] at h
      | some next =>
          simp only [hlayer] at h
          exact (prefix_referenceLayer hlayer other).trans (ih h)

theorem referenceLayers_not_mem
    (h : m.referenceLayers pos layers hidden kv = some (hidden', kv')) {other : Nat}
    (hout : other ∉ layers) : kv' other = kv other := by
  induction layers generalizing hidden kv with
  | nil =>
      cases h
      rfl
  | cons layerIdx rest ih =>
      rw [referenceLayers] at h
      cases hlayer : m.referenceLayer pos hidden layerIdx kv with
      | none => simp [hlayer] at h
      | some next =>
          simp only [hlayer] at h
          have hne : other ≠ layerIdx := List.ne_of_not_mem_cons hout
          exact (ih h (List.not_mem_of_not_mem_cons hout)).trans (referenceLayer_ne hlayer hne)

theorem referenceLayers_length
    (h : m.referenceLayers pos layers hidden kv = some (hidden', kv')) (hnodup : layers.Nodup)
    (hmem : layerIdx ∈ layers) : (kv' layerIdx).length = (kv layerIdx).length + 1 := by
  induction layers generalizing hidden kv with
  | nil => cases hmem
  | cons first rest ih =>
      rw [referenceLayers] at h
      cases hlayer : m.referenceLayer pos hidden first kv with
      | none => simp [hlayer] at h
      | some next =>
          simp only [hlayer] at h
          obtain ⟨hfirst, hrest⟩ := List.nodup_cons.1 hnodup
          rcases List.mem_cons.1 hmem with rfl | hmem
          · rw [referenceLayers_not_mem h hfirst, referenceLayer_length hlayer]
          · have hne : layerIdx ≠ first := fun heq => hfirst (heq ▸ hmem)
            rw [ih h hrest hmem, referenceLayer_ne hlayer hne]

theorem referenceFrom_length
    (h : m.referenceFrom vocabSize pos tokens hidden kv = some (hidden', kv'))
    (hlayer : layerIdx < numLayers) :
    (kv' layerIdx).length = (kv layerIdx).length + tokens.length := by
  induction tokens generalizing pos hidden kv with
  | nil =>
      cases h
      rfl
  | cons token rest ih =>
      rw [referenceFrom] at h
      cases htoken : m.referenceLayers pos (List.range numLayers)
          (m.embedding (min token (vocabSize - 1))) kv with
      | none => simp [htoken] at h
      | some next =>
          simp only [htoken] at h
          rw [ih h, referenceLayers_length htoken List.nodup_range (List.mem_range.2 hlayer),
            List.length_cons]
          omega

theorem reference_length (h : m.reference vocabSize tokens = some (hidden, kv))
    (hlayer : layerIdx < numLayers) : (kv layerIdx).length = tokens.length := by
  simpa using referenceFrom_length h hlayer

theorem referenceFrom_prefix
    (h : m.referenceFrom vocabSize pos tokens hidden kv = some (hidden', kv')) (layerIdx : Nat) :
    kv layerIdx <+: kv' layerIdx := by
  induction tokens generalizing pos hidden kv with
  | nil =>
      cases h
      exact List.prefix_rfl
  | cons token rest ih =>
      rw [referenceFrom] at h
      cases htoken : m.referenceLayers pos (List.range numLayers)
          (m.embedding (min token (vocabSize - 1))) kv with
      | none => simp [htoken] at h
      | some next =>
          simp only [htoken] at h
          exact (prefix_referenceLayers htoken layerIdx).trans (ih h)

theorem referenceFrom_append (hidden : V) (kv : KvLists V) :
    m.referenceFrom vocabSize pos (tokens ++ more) hidden kv =
      match m.referenceFrom vocabSize pos tokens hidden kv with
      | none => none
      | some (hidden, kv) => m.referenceFrom vocabSize (pos + tokens.length) more hidden kv := by
  induction tokens generalizing pos hidden kv with
  | nil => rfl
  | cons token rest ih =>
      rw [List.cons_append, referenceFrom, referenceFrom]
      cases m.referenceLayers pos (List.range numLayers)
          (m.embedding (min token (vocabSize - 1))) kv with
      | none => rfl
      | some next =>
          dsimp only
          rw [ih, List.length_cons, Nat.add_right_comm, Nat.add_assoc]

/-- Only the lists carry over to the next token, not the hidden state. -/
theorem referenceFrom_hidden (hne : tokens ≠ []) (hidden hidden' : V) :
    m.referenceFrom vocabSize pos tokens hidden kv =
      m.referenceFrom vocabSize pos tokens hidden' kv := by
  cases tokens with
  | nil => exact absurd rfl hne
  | cons token rest => rfl

/-- A sequence fed further was fed its first tokens before. -/
theorem reference_of_append (h : m.reference vocabSize (tokens ++ more) = some (hidden, kv)) :
    ∃ hidden' kv', m.reference vocabSize tokens = some (hidden', kv') ∧
      ∀ layerIdx, kv' layerIdx <+: kv layerIdx := by
  rw [reference, referenceFrom_append] at h
  rw [reference]
  cases hfirst : m.referenceFrom vocabSize 0 tokens m.zeroHidden (fun _ => []) with
  | none => simp [hfirst] at h
  | some state =>
      simp only [hfirst] at h
      exact ⟨state.1, state.2, rfl, referenceFrom_prefix h⟩

/-- However the tokens are split, the reference ends in the same state. -/
theorem reference_append (h : m.reference vocabSize tokens = some (hidden, kv))
    (hne : more ≠ []) :
    m.reference vocabSize (tokens ++ more) =
      m.referenceFrom vocabSize tokens.length more m.zeroHidden kv := by
  rw [reference, referenceFrom_append]
  rw [reference] at h
  simp only [h, Nat.zero_add]
  exact referenceFrom_hidden hne hidden m.zeroHidden

end CpuModel

end PagedServing
