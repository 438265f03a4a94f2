import PagedServing.Engine.StopStrings

/-! # Cutting at a token boundary

Where a text is cut is a byte offset, what is kept of it is whole tokens. The scan goes on
until as many bytes are behind as stand before the stop string, so a token that straddles
the offset is kept, with the part of the stop string it holds.
-/

namespace PagedServing

open TextSearch

section Piecewise

variable {τ δ : Type} [TokenizerTrait τ δ]

/-- The pieces of the tokens, one after another. -/
def joinPieces (piece : TokenId → String) (tokens : List TokenId) : String :=
  String.join (tokens.map piece)

/-- A tokenizer that decodes every token for itself. -/
def DecodesPiecewise (tokenizer : τ) (piece : TokenId → String) : Prop :=
  ∀ tokens, TokenizerTrait.tryDecode tokenizer tokens = .ok (joinPieces piece tokens)

variable {tokenizer : τ} {piece : TokenId → String} {tokens : List TokenId} {offset : Nat}

theorem joinPieces_append (piece : TokenId → String) (tokens more : List TokenId) :
    (joinPieces piece (tokens ++ more)).toList =
      (joinPieces piece tokens).toList ++ (joinPieces piece more).toList := by
  rw [joinPieces, List.map_append, String.join_append, String.toList_append]
  rfl

theorem joinPieces_take_isPrefix (piece : TokenId → String) (tokens : List TokenId) (n : Nat) :
    (joinPieces piece (tokens.take n)).toList <+: (joinPieces piece tokens).toList := by
  conv_rhs => rw [← List.take_append_drop n tokens]
  rw [joinPieces_append]
  exact List.prefix_append _ _

theorem DecodesPiecewise.segmentLen_eq (h : DecodesPiecewise tokenizer piece) (token : TokenId) :
    segmentLen tokenizer token = byteLen (piece token) := by
  have hdecode : TokenizerTrait.tryDecode tokenizer [token] = .ok (piece token) := by
    have hone := h [token]
    rwa [joinPieces, List.map_singleton, String.join_cons, String.join_nil,
      String.append_empty] at hone
  rw [segmentLen, hdecode]

/-- The bytes the scan counts are those of the text decoded so far. -/
theorem DecodesPiecewise.sum_segmentLen (h : DecodesPiecewise tokenizer piece)
    (tokens : List TokenId) :
    (tokens.map (segmentLen tokenizer)).sum = byteLen (joinPieces piece tokens) := by
  induction tokens with
  | nil => rfl
  | cons token rest ih =>
    have happend := joinPieces_append piece [token] rest
    rw [List.map_cons, List.sum_cons, ih, h.segmentLen_eq, byteLen, byteLen, byteLen,
      ← charsLen_append, ← List.singleton_append, happend]
    simp [joinPieces]

/-! ## What a cut keeps -/

/-- The first `keep` tokens hold nothing from the offset on, and all the text before it that
whole tokens can hold. -/
structure CutsClean (piece : TokenId → String) (tokens : List TokenId) (offset keep : Nat) :
    Prop where
  kept : (joinPieces piece (tokens.take keep)).toList <+:
    takeBytes offset (joinPieces piece tokens).toList
  maximal : ∀ n, keep < n → n ≤ tokens.length →
    (joinPieces piece (tokens.take n)).toList <+:
      takeBytes offset (joinPieces piece tokens).toList →
    joinPieces piece (tokens.take n) = joinPieces piece (tokens.take keep)

/-- Some number of leading tokens ends at the offset. -/
def TokenBoundary (piece : TokenId → String) (tokens : List TokenId) (offset : Nat) : Prop :=
  ∃ n ≤ tokens.length, byteLen (joinPieces piece (tokens.take n)) = offset

theorem takeBytes_of_isPrefix {short text : List Char} (h : short <+: text) :
    takeBytes (charsLen short) text = short := by
  obtain ⟨rest, rfl⟩ := h
  exact takeBytes_charsLen short rest

/-- The scan stops at the first token that reaches the offset. -/
theorem DecodesPiecewise.reaches (h : DecodesPiecewise tokenizer piece)
    (hlt : offset < byteLen (joinPieces piece tokens)) :
    offset ≤ byteLen (joinPieces piece
        (tokens.take (tokensBeforeChar tokens tokenizer offset))) ∧
      ∀ n, byteLen (joinPieces piece (tokens.take n)) = offset →
        tokensBeforeChar tokens tokenizer offset ≤ n := by
  obtain ⟨-, hstop, hgo⟩ := tokensBeforeChar_spec tokenizer tokens offset
  simp only [h.sum_segmentLen] at hstop hgo
  constructor
  · rcases hstop with hall | hbytes
    · rw [hall, List.take_length]
      exact hlt.le
    · exact hbytes
  · intro n hn
    by_contra hlt
    exact absurd hn (hgo n (Nat.not_le.1 hlt)).ne

theorem DecodesPiecewise.cutsClean (h : DecodesPiecewise tokenizer piece)
    (hlt : offset < byteLen (joinPieces piece tokens))
    (hboundary : TokenBoundary piece tokens offset) :
    CutsClean piece tokens offset (tokensBeforeChar tokens tokenizer offset) := by
  obtain ⟨hreach, hfirst⟩ := h.reaches hlt
  obtain ⟨n, -, hn⟩ := hboundary
  generalize tokensBeforeChar tokens tokenizer offset = keep at hreach hfirst ⊢
  have hmono {m m' : Nat} (hle : m ≤ m') : byteLen (joinPieces piece (tokens.take m)) ≤
      byteLen (joinPieces piece (tokens.take m')) := by
    refine charsLen_le_of_isPrefix ?_
    rw [← Nat.min_eq_left hle, ← List.take_take]
    exact joinPieces_take_isPrefix piece _ m
  have hkeep : byteLen (joinPieces piece (tokens.take keep)) = offset :=
    (hn ▸ hmono (hfirst n hn)).antisymm hreach
  have hcut : takeBytes offset (joinPieces piece tokens).toList =
      (joinPieces piece (tokens.take keep)).toList := by
    rw [← hkeep]
    exact takeBytes_of_isPrefix (joinPieces_take_isPrefix piece tokens keep)
  refine ⟨hcut ▸ List.prefix_rfl, ?_⟩
  intro m hm _ hprefix
  rw [hcut] at hprefix
  -- a longer prefix inside the cut has as many bytes, hence is the cut
  have hbytes : byteLen (joinPieces piece (tokens.take m)) = offset :=
    ((charsLen_le_of_isPrefix hprefix).trans hkeep.le).antisymm (hkeep.symm.le.trans (hmono hm.le))
  have hsame := takeBytes_of_isPrefix (joinPieces_take_isPrefix piece tokens m)
  rw [← byteLen, hbytes, hcut] at hsame
  exact String.toList_inj.1 hsame.symm

/-- A cut is clean exactly when the stop string begins where a token begins. -/
theorem cutsClean_iff_boundary (h : DecodesPiecewise tokenizer piece) {stops : List String}
    (hfind : findStopSequence (joinPieces piece tokens) stops = some offset) :
    CutsClean piece tokens offset (tokensBeforeChar tokens tokenizer offset) ↔
      TokenBoundary piece tokens offset := by
  obtain ⟨k, hk, hoffset⟩ := findStopSequence_eq_some hfind
  have hlt : offset < byteLen (joinPieces piece tokens) := by
    have htake := charsLen_take_lt hk.lt_length le_rfl
    rwa [List.take_length, ← hoffset] at htake
  refine ⟨fun hclean => ?_, h.cutsClean hlt⟩
  have hcut : takeBytes offset (joinPieces piece tokens).toList =
      (joinPieces piece tokens).toList.take k := by
    rw [hoffset]
    exact takeBytes_of_isPrefix (List.take_prefix k _)
  have hle := charsLen_le_of_isPrefix hclean.kept
  rw [hcut, ← hoffset] at hle
  exact ⟨_, (tokensBeforeChar_spec tokenizer tokens offset).1, hle.antisymm (h.reaches hlt).1⟩

end Piecewise

/-! ## A token that straddles the offset -/

/-- Token 1 decodes to "xA", every other token to "B". -/
def pairPiece (token : TokenId) : String := if token = 1 then "xA" else "B"

def pairTokenizer : HuggingFaceTokenizer where
  inner :=
    { encode := fun _ => .ok []
      decode := fun tokens => .ok (joinPieces pairPiece tokens)
      vocabSize := 3
      tokenToId := fun _ => none }
  specialTokens := {}

/-- The stop string "B" begins with a token. -/
theorem cutsClean_iff_boundary_pair :
    CutsClean pairPiece [1, 2] 2 (tokensBeforeChar [1, 2] pairTokenizer 2) ↔
      TokenBoundary pairPiece [1, 2] 2 :=
  cutsClean_iff_boundary (fun _ => rfl : DecodesPiecewise pairTokenizer pairPiece)
    (by decide +kernel : findStopSequence (joinPieces pairPiece [1, 2]) ["B"] = some 2)

/-- The stop string "AB" begins inside a token, whose "A" is kept. -/
theorem not_cutsClean_straddled :
    DecodesPiecewise pairTokenizer pairPiece ∧
      findStopSequence (joinPieces pairPiece [1, 2]) ["AB"] = some 1 ∧
      tokensBeforeChar [1, 2] pairTokenizer 1 = 1 ∧
      ¬ CutsClean pairPiece [1, 2] 1 (tokensBeforeChar [1, 2] pairTokenizer 1) := by
  refine ⟨fun _ => rfl, by decide +kernel, by decide +kernel, fun hclean => ?_⟩
  have hkept := hclean.kept
  revert hkept
  decide +kernel

end PagedServing
