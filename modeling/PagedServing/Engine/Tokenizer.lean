import PagedServing.Config

/-! # Tokenizers and incremental decoders

`src/tokenizer.rs`: the two traits, the character tokenizer, and the tokenizer that
wraps the third-party library and buffers a whole generation before decoding it.
-/

namespace PagedServing

class IncrementalDecoder (δ : Type) where
  push : δ → TokenId → Except String (Option String) × δ
  finish : δ → Except String (Option String) × δ

class TokenizerTrait (τ : Type) (δ : outParam Type) where
  tryEncode : τ → String → Except String (List TokenId)
  tryDecode : τ → List TokenId → Except String String
  vocabSize : τ → Nat
  bosTokenId : τ → TokenId
  eosTokenId : τ → TokenId
  padTokenId : τ → TokenId
  createDecoder : τ → δ

/-! ## Character tokenizer -/

structure SimpleTokenizer where
  charToId : List (Char × TokenId)
  idToChar : List (TokenId × Char)
  vocabSize : Nat
  specialTokens : SpecialTokenIds
  addSpecialTokens : Bool

namespace SimpleTokenizer

/-- Give a character the next free id. -/
def addChar (t : SimpleTokenizer) (c : Char) : SimpleTokenizer :=
  { t with
    charToId := (c, t.vocabSize) :: t.charToId
    idToChar := (t.vocabSize, c) :: t.idToChar
    vocabSize := t.vocabSize + 1 }

def addCharIfVacant (t : SimpleTokenizer) (c : Char) : SimpleTokenizer :=
  if (t.charToId.lookup c).isNone then t.addChar c else t

def withSpecialTokens (specialTokens : SpecialTokenIds) : SimpleTokenizer :=
  let empty : SimpleTokenizer := ⟨[], [], 4, specialTokens, true⟩
  let printable := ((List.range 95).map fun i => Char.ofNat (32 + i)).foldl addChar empty
  ['\n', '\r', '\t'].foldl addCharIfVacant printable

def new : SimpleTokenizer := withSpecialTokens {}

def withoutSpecialTokens : SimpleTokenizer := { new with addSpecialTokens := false }

def encodeChar (t : SimpleTokenizer) (c : Char) : TokenId :=
  (t.charToId.lookup c).getD t.specialTokens.unk

def decodeToken (t : SimpleTokenizer) (token : TokenId) : Option Char := t.idToChar.lookup token

/-- BOS, EOS and PAD are skipped when special tokens are in use. -/
def isSkipped (addSpecialTokens : Bool) (ids : SpecialTokenIds) (token : TokenId) : Bool :=
  addSpecialTokens && (token == ids.bos || token == ids.eos || token == ids.pad)

def tryEncode (t : SimpleTokenizer) (text : String) : Except String (List TokenId) :=
  let body := text.toList.map t.encodeChar
  .ok (if t.addSpecialTokens then t.specialTokens.bos :: body ++ [t.specialTokens.eos] else body)

def tryDecode (t : SimpleTokenizer) (tokens : List TokenId) : Except String String :=
  .ok <| String.ofList <| tokens.filterMap fun token =>
    if isSkipped t.addSpecialTokens t.specialTokens token then none else t.decodeToken token

end SimpleTokenizer

structure SimpleDecoder where
  idToChar : List (TokenId × Char)
  specialTokens : SpecialTokenIds
  addSpecialTokens : Bool

instance : IncrementalDecoder SimpleDecoder where
  push d token :=
    if SimpleTokenizer.isSkipped d.addSpecialTokens d.specialTokens token then (.ok none, d)
    else (.ok ((d.idToChar.lookup token).map fun c => String.ofList [c]), d)
  finish d := (.ok none, d)

instance : TokenizerTrait SimpleTokenizer SimpleDecoder where
  tryEncode := SimpleTokenizer.tryEncode
  tryDecode := SimpleTokenizer.tryDecode
  vocabSize t := t.vocabSize
  bosTokenId t := t.specialTokens.bos
  eosTokenId t := t.specialTokens.eos
  padTokenId t := t.specialTokens.pad
  createDecoder t := ⟨t.idToChar, t.specialTokens, t.addSpecialTokens⟩

/-! ## Third-party tokenizer -/

/-- What the engine uses of the `tokenizers` library. -/
structure LibraryTokenizer where
  encode : String → Except String (List TokenId)
  decode : List TokenId → Except String String
  vocabSize : Nat
  tokenToId : String → Option TokenId

structure HuggingFaceTokenizer where
  inner : LibraryTokenizer
  specialTokens : SpecialTokenIds

namespace HuggingFaceTokenizer

def bosTokenNames : List String := ["<|endoftext|>", "<s>", "<bos>", "<BOS>"]
def eosTokenNames : List String := ["<|im_end|>", "</s>", "<eos>", "<EOS>", "<|endoftext|>"]
def padTokenNames : List String := ["<|endoftext|>", "<pad>", "<PAD>"]

def firstTokenId (inner : LibraryTokenizer) (names : List String) : Option TokenId :=
  names.findSome? inner.tokenToId

/-- `with_special_tokens_from_file`, once the file has been loaded. -/
def withSpecialTokens (inner : LibraryTokenizer) (ids : SpecialTokenIds) : HuggingFaceTokenizer :=
  ⟨inner,
    { ids with
      bos := (firstTokenId inner bosTokenNames).getD ids.bos
      eos := (firstTokenId inner eosTokenNames).getD ids.eos
      pad := (firstTokenId inner padTokenNames).getD ids.pad }⟩

end HuggingFaceTokenizer

structure BufferedDecoder where
  inner : LibraryTokenizer
  tokens : List TokenId

instance : IncrementalDecoder BufferedDecoder where
  push d token := (.ok none, { d with tokens := d.tokens ++ [token] })
  finish d := (if d.tokens.isEmpty then .ok none else (d.inner.decode d.tokens).map some, d)

instance : TokenizerTrait HuggingFaceTokenizer BufferedDecoder where
  tryEncode t := t.inner.encode
  tryDecode t := t.inner.decode
  vocabSize t := t.inner.vocabSize
  bosTokenId t := t.specialTokens.bos
  eosTokenId t := t.specialTokens.eos
  padTokenId t := t.specialTokens.pad
  createDecoder t := ⟨t.inner, []⟩

end PagedServing
