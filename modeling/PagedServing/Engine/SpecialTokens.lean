import PagedServing.Engine.Streaming

/-! # Special tokens among the characters

The character tokenizer numbers its alphabet from 4 on, whatever the special tokens are,
and decoding goes by the value of a token alone. A text survives encoding and decoding as
long as the configured ids stay off the ids of its characters.
-/

namespace PagedServing

namespace SimpleTokenizer

/-- Printable ASCII, newline, carriage return and tab. -/
def Supported (c : Char) : Prop :=
  (32 ≤ c.toNat ∧ c.toNat ≤ 126) ∨ c = '\n' ∨ c = '\r' ∨ c = '\t'

instance : DecidablePred Supported := fun _ => inferInstanceAs (Decidable (_ ∨ _))

/-! ## The alphabet and its ids -/

def printable : List Char := (List.range 95).map fun i => Char.ofNat (32 + i)

/-- The characters with an id, in the order of their ids. -/
def alphabet : List Char := printable ++ ['\n', '\r', '\t']

theorem alphabet_nodup : alphabet.Nodup := by decide +kernel

theorem mem_printable {c : Char} : c ∈ printable ↔ 32 ≤ c.toNat ∧ c.toNat ≤ 126 := by
  rw [printable, List.mem_map]
  constructor
  · rintro ⟨i, hi, rfl⟩
    rw [List.mem_range] at hi
    have hvalid : (32 + i).isValidChar := Or.inl (by omega)
    rw [Char.toNat_ofNat, if_pos hvalid]
    omega
  · rintro ⟨hlow, hhigh⟩
    refine ⟨c.toNat - 32, List.mem_range.2 (by omega), ?_⟩
    rw [Nat.add_sub_cancel' hlow, Char.ofNat_toNat]

theorem mem_alphabet {c : Char} : c ∈ alphabet ↔ Supported c := by
  simp [alphabet, mem_printable, Supported]

/-- Adding characters in a row gives them consecutive ids. -/
theorem foldl_addChar (cs : List Char) (t : SimpleTokenizer) :
    cs.foldl addChar t =
      { t with
        charToId := (cs.zipIdx t.vocabSize).reverse ++ t.charToId
        idToChar := ((cs.zipIdx t.vocabSize).map Prod.swap).reverse ++ t.idToChar
        vocabSize := t.vocabSize + cs.length } := by
  induction cs generalizing t with
  | nil => simp
  | cons c rest ih =>
    rw [List.foldl_cons, ih]
    simp [addChar, List.zipIdx_cons, Nat.add_assoc, Nat.add_comm 1]

theorem addCharIfVacant_of_not_mem {t : SimpleTokenizer} {c : Char}
    (h : c ∉ t.charToId.map Prod.fst) : t.addCharIfVacant c = t.addChar c := by
  rw [addCharIfVacant, if_pos]
  rw [IdMap.lookup_eq_none_of_not_mem h, Option.isNone_none]

/-- Characters that have no id yet, each once, are all added. -/
theorem foldl_addCharIfVacant {cs : List Char} {t : SimpleTokenizer} (hnodup : cs.Nodup)
    (h : ∀ c ∈ cs, c ∉ t.charToId.map Prod.fst) :
    cs.foldl addCharIfVacant t = cs.foldl addChar t := by
  induction cs generalizing t with
  | nil => rfl
  | cons c rest ih =>
    rw [List.nodup_cons] at hnodup
    rw [List.foldl_cons, List.foldl_cons, addCharIfVacant_of_not_mem (h c (by simp))]
    refine ih hnodup.2 ?_
    intro d hd
    simp only [addChar, List.map_cons, List.mem_cons, not_or]
    exact ⟨fun heq => hnodup.1 (heq ▸ hd), h d (by simp [hd])⟩

theorem withSpecialTokens_eq (ids : SpecialTokenIds) :
    withSpecialTokens ids = alphabet.foldl addChar ⟨[], [], 4, ids, true⟩ := by
  have hvacant : ∀ c ∈ ['\n', '\r', '\t'], c ∉ printable := by
    simp [mem_printable]
  have hprintable : withSpecialTokens ids =
      ['\n', '\r', '\t'].foldl addCharIfVacant (printable.foldl addChar ⟨[], [], 4, ids, true⟩) :=
    rfl
  rw [hprintable, alphabet, List.foldl_append]
  refine foldl_addCharIfVacant (by decide) ?_
  rw [foldl_addChar]
  simpa [List.map_reverse, List.zipIdx_map_fst] using hvacant

variable {ids : SpecialTokenIds} {c : Char} {id : Nat}

theorem lookup_charToId_iff :
    (withSpecialTokens ids).charToId.lookup c = some id ↔ (c, id) ∈ alphabet.zipIdx 4 := by
  have htable : (withSpecialTokens ids).charToId = (alphabet.zipIdx 4).reverse := by
    rw [withSpecialTokens_eq, foldl_addChar, List.append_nil]
  have hnodup : ((alphabet.zipIdx 4).reverse.map Prod.fst).Nodup := by
    rw [List.map_reverse, List.zipIdx_map_fst, List.nodup_reverse]
    exact alphabet_nodup
  rw [htable]
  refine ⟨fun h => ?_, fun h => IdMap.lookup_eq_some_of_mem hnodup (List.mem_reverse.2 h)⟩
  exact List.mem_reverse.1 (IdMap.mem_of_lookup_eq_some h)

theorem decodeToken_eq_some_iff :
    (withSpecialTokens ids).decodeToken id = some c ↔ (c, id) ∈ alphabet.zipIdx 4 := by
  have htable : (withSpecialTokens ids).idToChar =
      ((alphabet.zipIdx 4).map Prod.swap).reverse := by
    rw [withSpecialTokens_eq, foldl_addChar]
    exact List.append_nil _
  have hmem : (id, c) ∈ ((alphabet.zipIdx 4).map Prod.swap).reverse ↔
      (c, id) ∈ alphabet.zipIdx 4 := by
    rw [List.mem_reverse, List.mem_map]
    constructor
    · rintro ⟨⟨_, _⟩, h, heq⟩
      obtain ⟨rfl, rfl⟩ := Prod.mk.inj heq
      exact h
    · exact fun h => ⟨_, h, rfl⟩
  have hnodup : (((alphabet.zipIdx 4).map Prod.swap).reverse.map Prod.fst).Nodup := by
    have hsnd : Prod.fst ∘ (Prod.swap : Char × Nat → Nat × Char) = Prod.snd := rfl
    rw [List.map_reverse, List.map_map, hsnd, List.zipIdx_map_snd, List.nodup_reverse]
    exact List.nodup_range'
  rw [decodeToken, htable, ← hmem]
  exact ⟨IdMap.mem_of_lookup_eq_some, IdMap.lookup_eq_some_of_mem hnodup⟩

/-- The ids of the characters are 4 to 101. -/
theorem exists_mem_zipIdx_iff : (∃ c, (c, id) ∈ alphabet.zipIdx 4) ↔ 4 ≤ id ∧ id ≤ 101 := by
  have hlength : alphabet.length = 98 := by simp [alphabet, printable]
  simp only [List.mk_mem_zipIdx_iff_le_and_getElem?_sub, exists_and_left]
  refine and_congr_right fun hle => ?_
  rw [← Option.isSome_iff_exists, isSome_getElem?, hlength]
  omega

theorem encodeChar_of_supported (ids : SpecialTokenIds) (h : Supported c) :
    (c, (withSpecialTokens ids).encodeChar c) ∈ alphabet.zipIdx 4 := by
  obtain ⟨i, hi, heq⟩ := List.mem_iff_getElem.1 (mem_alphabet.2 h)
  have hmem : (c, 4 + i) ∈ alphabet.zipIdx 4 :=
    List.mk_add_mem_zipIdx_iff_getElem?.2 (heq ▸ List.getElem?_eq_getElem hi)
  rw [encodeChar, lookup_charToId_iff.2 hmem]
  exact hmem

theorem encodeChar_of_not_supported (h : ¬ Supported c) :
    (withSpecialTokens ids).encodeChar c = ids.unk := by
  have hnone : (withSpecialTokens ids).charToId.lookup c = none := by
    rw [Option.eq_none_iff_forall_ne_some]
    intro id hid
    exact h (mem_alphabet.1 (List.fst_mem_of_mem_zipIdx (lookup_charToId_iff.1 hid)))
  rw [encodeChar, hnone]
  rfl

/-! ## What a character decodes to -/

/-- Decoding drops the tokens with these ids. -/
def skippedIds (ids : SpecialTokenIds) : List TokenId := [ids.bos, ids.eos, ids.pad]

theorem visible_eq (ids : SpecialTokenIds) (id : TokenId) :
    (withSpecialTokens ids).visible id =
      if id ∈ skippedIds ids then none else (withSpecialTokens ids).decodeToken id := by
  rw [visible, withSpecialTokens_eq, foldl_addChar]
  simp [isSkipped, skippedIds, or_assoc]

theorem visible_encodeChar_of_supported (ids : SpecialTokenIds) (h : Supported c) :
    (withSpecialTokens ids).visible ((withSpecialTokens ids).encodeChar c) =
      if (withSpecialTokens ids).encodeChar c ∈ skippedIds ids then none else some c := by
  rw [visible_eq, decodeToken_eq_some_iff.2 (encodeChar_of_supported ids h)]

theorem visible_eq_none_iff :
    (withSpecialTokens ids).visible id = none ↔ id < 4 ∨ 101 < id ∨ id ∈ skippedIds ids := by
  have hdecode : (withSpecialTokens ids).decodeToken id = none ↔ id < 4 ∨ 101 < id := by
    have hsome : (∃ c, (withSpecialTokens ids).decodeToken id = some c) ↔ 4 ≤ id ∧ id ≤ 101 := by
      simp only [decodeToken_eq_some_iff, exists_mem_zipIdx_iff]
    rw [Option.eq_none_iff_forall_ne_some, ← not_exists, hsome]
    omega
  rw [visible_eq]
  split
  next hskip => simp [hskip]
  next hskip => rw [hdecode]; simp [hskip]

/-- Encoding and then decoding. -/
def roundTrip (t : SimpleTokenizer) (text : String) : Except String String :=
  (t.tryEncode text).bind t.tryDecode

theorem roundTrip_eq (ids : SpecialTokenIds) (text : String) :
    (withSpecialTokens ids).roundTrip text = .ok (String.ofList (text.toList.filterMap fun c =>
      (withSpecialTokens ids).visible ((withSpecialTokens ids).encodeChar c))) := by
  have hfields : (withSpecialTokens ids).addSpecialTokens = true ∧
      (withSpecialTokens ids).specialTokens = ids := by
    rw [withSpecialTokens_eq, foldl_addChar]
    exact ⟨rfl, rfl⟩
  have hskip (id : TokenId) (h : id ∈ skippedIds ids) :
      (withSpecialTokens ids).visible id = none := by
    rw [visible_eq, if_pos h]
  have hdecode (tokens : List TokenId) : (withSpecialTokens ids).tryDecode tokens =
      .ok (String.ofList (tokens.filterMap (withSpecialTokens ids).visible)) := rfl
  rw [roundTrip, tryEncode, hfields.1, hfields.2, if_pos rfl, Except.bind, hdecode,
    List.filterMap_append, List.filterMap_cons_none (hskip _ (by simp [skippedIds])),
    List.filterMap_map]
  simp [hskip ids.eos (by simp [skippedIds])]

/-! ## When a text survives -/

theorem filterMap_filter_eq_iff {α β : Type} {f : α → Option β} {p : α → Prop} [DecidablePred p]
    {l : List α} :
    l.filterMap f = (l.filter p).filterMap f ↔ ∀ a ∈ l, ¬ p a → f a = none := by
  induction l with
  | nil => simp
  | cons a rest ih =>
    rw [List.forall_mem_cons, ← ih]
    by_cases hp : p a
    · rw [List.filter_cons_of_pos (by simpa using hp)]
      cases hf : f a with
      | none => simp [hf]
      | some b => simp [hf, hp]
    · rw [List.filter_cons_of_neg (by simpa using hp)]
      cases hf : f a with
      | none => simp [hf]
      | some b =>
        have hle : ((rest.filter p).filterMap f).length ≤ (rest.filterMap f).length :=
          (List.filter_sublist.filterMap f).length_le
        refine iff_of_false (fun heq => ?_) (by simp [hp])
        rw [List.filterMap_cons_some hf] at heq
        have hlen := congrArg List.length heq
        rw [List.length_cons] at hlen
        omega

/-- A text of supported characters comes back, and a character that is not supported leaves
no trace in the text that comes back. -/
structure RoundTrips (ids : SpecialTokenIds) (text : String) : Prop where
  supported : (∀ c ∈ text.toList, Supported c) →
    (withSpecialTokens ids).roundTrip text = .ok text
  dropped : (withSpecialTokens ids).roundTrip text =
    (withSpecialTokens ids).roundTrip (String.ofList (text.toList.filter Supported))

/-- No character of a text in which all are supported has the id of a token that decoding drops;
for another text the token for unknown characters is not the id of a character, unless it is
dropped. -/
structure KeepsApart (ids : SpecialTokenIds) (text : String) : Prop where
  characters : (∀ c ∈ text.toList, Supported c) →
    ∀ c ∈ text.toList, (withSpecialTokens ids).encodeChar c ∉ skippedIds ids
  unknown : (∃ c ∈ text.toList, ¬ Supported c) →
    ids.unk < 4 ∨ 101 < ids.unk ∨ ids.unk ∈ skippedIds ids

theorem roundTrip_eq_self_iff {text : String} (h : ∀ c ∈ text.toList, Supported c) :
    (withSpecialTokens ids).roundTrip text = .ok text ↔
      ∀ c ∈ text.toList, (withSpecialTokens ids).encodeChar c ∉ skippedIds ids := by
  have hshown : text.toList.filterMap (fun c =>
        (withSpecialTokens ids).visible ((withSpecialTokens ids).encodeChar c)) =
      text.toList.filter fun c => (withSpecialTokens ids).encodeChar c ∉ skippedIds ids := by
    rw [← List.filterMap_eq_filter]
    refine List.filterMap_congr fun c hc => ?_
    rw [visible_encodeChar_of_supported ids (h c hc), Option.guard_def]
    simp
  rw [roundTrip_eq, hshown, Except.ok.injEq, String.ofList_eq, List.filter_eq_self]
  simp

theorem roundTrip_dropped_iff (ids : SpecialTokenIds) (text : String) :
    (withSpecialTokens ids).roundTrip text =
        (withSpecialTokens ids).roundTrip (String.ofList (text.toList.filter Supported)) ↔
      ∀ c ∈ text.toList, ¬ Supported c → ids.unk < 4 ∨ 101 < ids.unk ∨ ids.unk ∈ skippedIds ids := by
  rw [roundTrip_eq, roundTrip_eq, Except.ok.injEq, String.ofList_inj, String.toList_ofList,
    filterMap_filter_eq_iff]
  refine forall₃_congr fun c _ hc => ?_
  rw [encodeChar_of_not_supported hc, visible_eq_none_iff]

theorem roundTrips_iff_keepsApart (ids : SpecialTokenIds) (text : String) :
    RoundTrips ids text ↔ KeepsApart ids text := by
  constructor
  · rintro ⟨hsupported, hdropped⟩
    refine ⟨fun h => (roundTrip_eq_self_iff h).1 (hsupported h), ?_⟩
    rintro ⟨c, hc, hnot⟩
    exact (roundTrip_dropped_iff ids text).1 hdropped c hc hnot
  · rintro ⟨hcharacters, hunknown⟩
    exact ⟨fun h => (roundTrip_eq_self_iff h).2 (hcharacters h),
      (roundTrip_dropped_iff ids text).2 fun c hc hnot => hunknown ⟨c, hc, hnot⟩⟩

/-- An id that is no character's. -/
def Reserved (id : TokenId) : Prop := id < 4 ∨ 101 < id

theorem keepsApart_of_reserved (h : ∀ id ∈ ids.unk :: skippedIds ids, Reserved id)
    (text : String) : KeepsApart ids text where
  characters hsupported c hc hmem := by
    have hid := exists_mem_zipIdx_iff.1 ⟨c, encodeChar_of_supported ids (hsupported c hc)⟩
    rcases h _ (List.mem_cons_of_mem _ hmem) with hlow | hhigh
    · exact absurd hlow (Nat.not_lt.2 hid.1)
    · exact absurd hhigh (Nat.not_lt.2 hid.2)
  unknown _ := (h ids.unk (by simp)).imp_right .inl

theorem reserved_of_keepsApart (h : ∀ text, KeepsApart ids text) {id : Nat}
    (hid : id ∈ ids.unk :: skippedIds ids) : Reserved id := by
  have hskipped (id : Nat) (hid : id ∈ skippedIds ids) : Reserved id := by
    by_contra hnot
    rw [Reserved, not_or, Nat.not_lt, Nat.not_lt] at hnot
    obtain ⟨c, hc⟩ := exists_mem_zipIdx_iff.2 hnot
    have hsupported : Supported c := mem_alphabet.1 (List.fst_mem_of_mem_zipIdx hc)
    have hencode : (withSpecialTokens ids).encodeChar c = id := by
      rw [encodeChar, lookup_charToId_iff.2 hc]
      rfl
    have hapart := (h (String.ofList [c])).characters (by simpa using hsupported) c (by simp)
    exact hapart (hencode ▸ hid)
  rcases List.mem_cons.1 hid with rfl | hid
  · rcases (h "é").unknown ⟨'é', by simp, by decide⟩ with hlow | hhigh | hskip
    · exact .inl hlow
    · exact .inr hhigh
    · exact hskipped _ hskip
  · exact hskipped id hid

/-- A configuration keeps a text exactly when its special ids miss the text's characters, and
keeps all texts exactly when they miss the character ids altogether. -/
theorem roundTrips_iff (ids : SpecialTokenIds) :
    (∀ text, RoundTrips ids text ↔ KeepsApart ids text) ∧
      ((∀ text, RoundTrips ids text) ↔ ∀ id ∈ ids.unk :: skippedIds ids, Reserved id) := by
  refine ⟨roundTrips_iff_keepsApart ids, ?_, ?_⟩
  · intro h id hid
    exact reserved_of_keepsApart (fun text => (roundTrips_iff_keepsApart ids text).1 (h text)) hid
  · intro h text
    exact (roundTrips_iff_keepsApart ids text).2 (keepsApart_of_reserved h text)

/-- With the id of "a" as the end of a text, "a" is dropped, and with the same id for unknown
characters, "é" comes back as "a"; both configurations are accepted. -/
theorem not_roundTrips_letter :
    EngineConfig.validate { specialTokens := { eos := 69 } } = .ok () ∧
      (withSpecialTokens { eos := 69 }).roundTrip "a" = .ok "" ∧ ¬ RoundTrips { eos := 69 } "a" ∧
      EngineConfig.validate { specialTokens := { unk := 69 } } = .ok () ∧
      (withSpecialTokens { unk := 69 }).roundTrip "é" = .ok "a" ∧
      ¬ RoundTrips { unk := 69 } "é" := by
  have hdropped : (withSpecialTokens { eos := 69 }).roundTrip "a" = .ok "" := by decide +kernel
  have hother : (withSpecialTokens { unk := 69 }).roundTrip "é" = .ok "a" := by decide +kernel
  refine ⟨by decide +kernel, hdropped, fun h => ?_, by decide +kernel, hother, fun h => ?_⟩
  · have hsame := h.supported (by simp [Supported])
    rw [hdropped] at hsame
    simp at hsame
  · have hsame := h.dropped
    rw [hother] at hsame
    revert hsame
    decide +kernel

end SimpleTokenizer

end PagedServing
