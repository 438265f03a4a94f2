import PagedServing.Config
import PagedServing.Library.Framing

/-! # Server-sent events from a byte stream

`take_sse_data` of `src/bin/loadgen.rs` and the loop around it. Events end in two line feeds
or two CRLFs, each searched for by itself; the network cuts the bytes anywhere, inside a
delimiter or a character too.
-/

namespace PagedServing

open Framing

/-! ## UTF-8 -/

structure Utf8Error where
  validUpTo : Nat
  errorLen : Option Nat
  deriving DecidableEq

def isContinuation (b : UInt8) : Bool := 0x80 ≤ b && b ≤ 0xBF

/-- What may follow the first byte of three. -/
def isSecondOfThree (first b : UInt8) : Bool :=
  if first = 0xE0 then 0xA0 ≤ b && b ≤ 0xBF
  else if first = 0xED then 0x80 ≤ b && b ≤ 0x9F
  else isContinuation b

/-- What may follow the first byte of four. -/
def isSecondOfFour (first b : UInt8) : Bool :=
  if first = 0xF0 then 0x90 ≤ b && b ≤ 0xBF
  else if first = 0xF4 then 0x80 ≤ b && b ≤ 0x8F
  else isContinuation b

/-- The character with the payload bits of the first byte and six of each other one. -/
def scalarOf (lead : Nat) (tail : List UInt8) : Char :=
  Char.ofNat (tail.foldl (fun n b => 64 * n + b.toNat % 64) lead)

/-- `str::from_utf8`, after `validUpTo` bytes. -/
def fromUtf8From (validUpTo : Nat) : List UInt8 → Except Utf8Error (List Char)
  | [] => .ok []
  | b :: rest =>
      if b < 0x80 then (fromUtf8From (validUpTo + 1) rest).map (scalarOf b.toNat [] :: ·)
      else if 0xC2 ≤ b && b ≤ 0xDF then
        match rest with
        | [] => .error ⟨validUpTo, none⟩
        | c :: rest =>
            if !isContinuation c then .error ⟨validUpTo, some 1⟩
            else (fromUtf8From (validUpTo + 2) rest).map (scalarOf (b.toNat % 32) [c] :: ·)
      else if 0xE0 ≤ b && b ≤ 0xEF then
        match rest with
        | [] => .error ⟨validUpTo, none⟩
        | c :: rest =>
            if !isSecondOfThree b c then .error ⟨validUpTo, some 1⟩
            else
              match rest with
              | [] => .error ⟨validUpTo, none⟩
              | d :: rest =>
                  if !isContinuation d then .error ⟨validUpTo, some 2⟩
                  else
                    (fromUtf8From (validUpTo + 3) rest).map (scalarOf (b.toNat % 16) [c, d] :: ·)
      else if 0xF0 ≤ b && b ≤ 0xF4 then
        match rest with
        | [] => .error ⟨validUpTo, none⟩
        | c :: rest =>
            if !isSecondOfFour b c then .error ⟨validUpTo, some 1⟩
            else
              match rest with
              | [] => .error ⟨validUpTo, none⟩
              | d :: rest =>
                  if !isContinuation d then .error ⟨validUpTo, some 2⟩
                  else
                    match rest with
                    | [] => .error ⟨validUpTo, none⟩
                    | e :: rest =>
                        if !isContinuation e then .error ⟨validUpTo, some 3⟩
                        else
                          (fromUtf8From (validUpTo + 4) rest).map
                            (scalarOf (b.toNat % 8) [c, d, e] :: ·)
      else .error ⟨validUpTo, some 1⟩

def fromUtf8 (bytes : List UInt8) : Except Utf8Error (List Char) := fromUtf8From 0 bytes

/-! ## The payload of an event -/

/-- `str::lines`, with the characters of the current line in reverse. -/
def linesFrom : List Char → List Char → List (List Char)
  | line, [] => if line.isEmpty then [] else [line.reverse]
  | line, c :: rest =>
      if c = '\n' then
        (if line.head? = some '\r' then line.tail else line).reverse :: linesFrom [] rest
      else linesFrom (c :: line) rest

def lines (text : List Char) : List (List Char) := linesFrom [] text

/-- What follows `data:` on a line, without leading white space. -/
def dataOfLine (line : List Char) : Option (List Char) :=
  ((line.rdropWhile (· = '\r')).dropPrefix? "data:".toList).map (·.dropWhile isWhiteSpace)

def dataOf (event : List Char) : String :=
  String.ofList (((lines event).filterMap dataOfLine).intersperse ['\n']).flatten

/-! ## Taking one event -/

def lfDelimiter : List UInt8 := [10, 10]

def crlfDelimiter : List UInt8 := [13, 10, 13, 10]

/-- The first of the elements whose key is least. -/
def minByKey {α : Type} (key : α → Nat) : List α → Option α
  | [] => none
  | a :: rest =>
      match minByKey key rest with
      | none => some a
      | some b => if key a ≤ key b then some a else some b

/-- Where the first delimiter stands, and its length. -/
def firstDelimiter (buffer : List UInt8) : Option (Nat × Nat) :=
  let lf := (position lfDelimiter buffer).map fun pos => (pos, 2)
  let crlf := (position crlfDelimiter buffer).map fun pos => (pos, 4)
  minByKey Prod.fst ([lf, crlf].filterMap id)

def takeSseData (buffer : List UInt8) : Except Utf8Error (Option String) × List UInt8 :=
  match firstDelimiter buffer with
  | none => (.ok none, buffer)
  | some (pos, delimiterLen) =>
      let consumed := buffer.take (pos + delimiterLen)
      let rest := buffer.drop (pos + delimiterLen)
      match fromUtf8 (consumed.take pos) with
      | .error e => (.error e, rest)
      | .ok event => (.ok (some (dataOf event)), rest)

example : takeSseData ("data: 你\r\n\r\n".toUTF8.toList ++ [100]) = (.ok (some "你"), [100]) := by
  decide +kernel

/-! ## The read loop -/

abbrev SseReader := Reader UInt8 (Except Utf8Error String)

/-- A result after which nothing is read: a broken event, or a payload that is `fatal`. -/
def endsReading (fatal : String → Bool) : Except Utf8Error String → Bool
  | .error _ => true
  | .ok payload => fatal payload

/-- The inner loop, for at most `n` turns. -/
def takeAll (fatal : String → Bool) : Nat → List UInt8 →
    List (Except Utf8Error String) × List UInt8
  | 0, buffer => ([], buffer)
  | n + 1, buffer =>
      match takeSseData buffer with
      | (.error e, buffer) => ([.error e], buffer)
      | (.ok none, buffer) => ([], buffer)
      | (.ok (some payload), buffer) =>
          if fatal payload then ([.ok payload], buffer)
          else (.ok payload :: (takeAll fatal n buffer).1, (takeAll fatal n buffer).2)

/-- A chunk is appended, and every event that is now complete taken. -/
def receive (fatal : String → Bool) (r : SseReader) (chunk : List UInt8) : SseReader :=
  let buffer := r.buffer ++ chunk
  if r.outputs.any (endsReading fatal) then { r with buffer }
  else
    let taken := takeAll fatal buffer.length buffer
    ⟨r.outputs ++ taken.1, taken.2⟩

/-- The outer loop, which leaves the rest of the stream unread when the reading ends. -/
def runRequest (fatal : String → Bool) : List (List UInt8) → SseReader →
    SseReader × List (List UInt8)
  | [], r => (r, [])
  | chunk :: rest, r =>
      if (receive fatal r chunk).outputs.any (endsReading fatal) then (receive fatal r chunk, rest)
      else runRequest fatal rest (receive fatal r chunk)

/-- What `run_request` stops at; `bad` stands for what is no JSON or reports an error. -/
def requestFatal (bad : String → Bool) (payload : String) : Bool :=
  payload ≠ "" && (payload = "[DONE]" || bad payload)

/-! ## Delimiters do not move -/

theorem getElem?_of_prefix_drop {pattern buffer : List UInt8} {i : Nat}
    (h : pattern <+: buffer.drop i) {k : Nat} (hk : k < pattern.length) :
    buffer[i + k]? = pattern[k]? := by
  obtain ⟨rest, hrest⟩ := h
  rw [← List.getElem?_drop, ← hrest, List.getElem?_append_left hk]

/-- Two line feeds and two CRLFs cannot overlap so that the CRLFs begin first. -/
theorem position_lf_lt_crlf {buffer more : List UInt8} {p q : Nat}
    (hlf : position lfDelimiter buffer = some p) (hcrlf : position crlfDelimiter buffer = none)
    (hcrlf' : position crlfDelimiter (buffer ++ more) = some q) : p < q := by
  have hend := position_add_length_le hlf
  have hlate := lt_of_position_append (by simp [crlfDelimiter]) hcrlf hcrlf'
  simp only [lfDelimiter, crlfDelimiter, List.length_cons, List.length_nil] at hend hlate
  have hlf' := (position_eq_some (position_append hlf more)).2
  have hcr := (position_eq_some hcrlf').2
  by_contra hle
  have hcases : p = q ∨ p = q + 1 := by omega
  rcases hcases with rfl | rfl
  · have hfeed := getElem?_of_prefix_drop hlf' (by decide : 0 < lfDelimiter.length)
    have hreturn := getElem?_of_prefix_drop hcr (by decide : 0 < crlfDelimiter.length)
    rw [hfeed] at hreturn
    exact absurd hreturn (by decide)
  · have hfeed := getElem?_of_prefix_drop hlf' (by decide : 1 < lfDelimiter.length)
    have hreturn := getElem?_of_prefix_drop hcr (by decide : 2 < crlfDelimiter.length)
    rw [Nat.add_assoc, hreturn] at hfeed
    exact absurd hfeed (by decide)

theorem position_crlf_lt_lf {buffer more : List UInt8} {p q : Nat}
    (hlf : position lfDelimiter buffer = none) (hcrlf : position crlfDelimiter buffer = some q)
    (hlf' : position lfDelimiter (buffer ++ more) = some p) : q < p := by
  have hend := position_add_length_le hcrlf
  have hlate := lt_of_position_append (by simp [lfDelimiter]) hlf hlf'
  simp only [lfDelimiter, crlfDelimiter, List.length_cons, List.length_nil] at hend hlate
  omega

/-- The delimiter that is taken stays the first one, whatever comes in later. -/
theorem firstDelimiter_append {buffer : List UInt8} {found : Nat × Nat}
    (h : firstDelimiter buffer = some found) (more : List UInt8) :
    firstDelimiter (buffer ++ more) = some found := by
  rw [firstDelimiter] at h ⊢
  cases hlf : position lfDelimiter buffer with
  | none =>
    cases hcrlf : position crlfDelimiter buffer with
    | none => simp [hlf, hcrlf, minByKey] at h
    | some q =>
      rw [position_append hcrlf more]
      cases hlf' : position lfDelimiter (buffer ++ more) with
      | none => simpa [hlf, hcrlf] using h
      | some p =>
        have hlt := position_crlf_lt_lf hlf hcrlf hlf'
        have hfound : (q, 4) = found := by simpa [hlf, hcrlf, minByKey] using h
        subst hfound
        simp [minByKey, Nat.not_le.2 hlt]
  | some p =>
    rw [position_append hlf more]
    cases hcrlf : position crlfDelimiter buffer with
    | none =>
      cases hcrlf' : position crlfDelimiter (buffer ++ more) with
      | none => simpa [hlf, hcrlf] using h
      | some q =>
        have hlt := position_lf_lt_crlf hlf hcrlf hcrlf'
        have hfound : (p, 2) = found := by simpa [hlf, hcrlf, minByKey] using h
        subst hfound
        simp [minByKey, hlt.le]
    | some q =>
      rw [position_append hcrlf more]
      simpa [hlf, hcrlf] using h

/-- A delimiter stands where it was found. -/
theorem firstDelimiter_eq_some {buffer : List UInt8} {pos len : Nat}
    (h : firstDelimiter buffer = some (pos, len)) :
    ∃ delimiter, (delimiter = lfDelimiter ∨ delimiter = crlfDelimiter) ∧
      delimiter.length = len ∧ position delimiter buffer = some pos := by
  rw [firstDelimiter] at h
  cases hlf : position lfDelimiter buffer with
  | none =>
    cases hcrlf : position crlfDelimiter buffer with
    | none => simp [hlf, hcrlf, minByKey] at h
    | some q =>
      simp only [hlf, hcrlf, Option.map_none, Option.map_some] at h
      cases h
      exact ⟨crlfDelimiter, .inr rfl, rfl, hcrlf⟩
  | some p =>
    cases hcrlf : position crlfDelimiter buffer with
    | none =>
      simp only [hlf, hcrlf, Option.map_none, Option.map_some] at h
      cases h
      exact ⟨lfDelimiter, .inl rfl, rfl, hlf⟩
    | some q =>
      simp [hlf, hcrlf, minByKey] at h
      split at h
      next => cases h; exact ⟨lfDelimiter, .inl rfl, rfl, hlf⟩
      next => cases h; exact ⟨crlfDelimiter, .inr rfl, rfl, hcrlf⟩

/-- A delimiter stands at index `i`. -/
def DelimiterAt (bytes : List UInt8) (i : Nat) : Prop :=
  lfDelimiter <+: bytes.drop i ∨ crlfDelimiter <+: bytes.drop i

theorem not_delimiterAt_of_none {buffer : List UInt8} (h : firstDelimiter buffer = none) (i : Nat) :
    ¬ DelimiterAt buffer i := by
  have hlf : position lfDelimiter buffer = none := by
    cases hlf : position lfDelimiter buffer with
    | none => rfl
    | some p => cases hcrlf : position crlfDelimiter buffer <;>
        simp [firstDelimiter, hlf, hcrlf, minByKey, ite_eq_iff] at h
  have hcrlf : position crlfDelimiter buffer = none := by
    cases hcrlf : position crlfDelimiter buffer with
    | none => rfl
    | some q => simp [firstDelimiter, hlf, hcrlf, minByKey] at h
  rcases Nat.lt_or_ge i buffer.length with hi | hi
  · rintro (hat | hat)
    · exact position_eq_none hlf hi hat
    · exact position_eq_none hcrlf hi hat
  · rw [DelimiterAt, List.drop_eq_nil_of_le hi]
    simp [lfDelimiter, crlfDelimiter]

/-- No delimiter begins before the first one. -/
theorem not_delimiterAt_of_lt {buffer : List UInt8} {pos len i : Nat}
    (h : firstDelimiter buffer = some (pos, len)) (hi : i < pos) : ¬ DelimiterAt buffer i := by
  have hlt : i < buffer.length := by
    obtain ⟨delimiter, -, -, hpos⟩ := firstDelimiter_eq_some h
    exact hi.trans (position_eq_some hpos).1
  have hbefore {delimiter : List UInt8}
      (hle : ∀ q, position delimiter buffer = some q → pos ≤ q) :
      ¬ delimiter <+: buffer.drop i := by
    cases hq : position delimiter buffer with
    | none => exact position_eq_none hq hlt
    | some q => exact not_prefix_of_lt_position hq (hi.trans_le (hle q hq))
  rw [firstDelimiter] at h
  rintro (hat | hat)
  · refine hbefore (fun p hlf => ?_) hat
    cases hcrlf : position crlfDelimiter buffer <;>
      simp [hlf, hcrlf, minByKey, ite_eq_iff] at h <;> omega
  · refine hbefore (fun q hcrlf => ?_) hat
    cases hlf : position lfDelimiter buffer <;>
      simp [hlf, hcrlf, minByKey, ite_eq_iff] at h <;> omega

/-! ## The framing -/

/-- An event and the delimiter after it. -/
def sseFraming : Framing UInt8 (List UInt8 × List UInt8) where
  next buffer := (firstDelimiter buffer).map fun found =>
    ((buffer.take found.1, (buffer.drop found.1).take found.2), buffer.drop (found.1 + found.2))
  bytes event := event.1 ++ event.2
  bytes_append h := by
    obtain ⟨found, -, heq⟩ := Option.map_eq_some_iff.1 h
    obtain ⟨rfl, rfl⟩ := Prod.mk.inj heq
    rw [← List.drop_drop, List.append_assoc, List.take_append_drop, List.take_append_drop]
  bytes_ne_nil h := by
    obtain ⟨⟨pos, len⟩, hfound, heq⟩ := Option.map_eq_some_iff.1 h
    obtain ⟨rfl, rfl⟩ := Prod.mk.inj heq
    obtain ⟨delimiter, hdelimiter, rfl, hpos⟩ := firstDelimiter_eq_some hfound
    have hle := position_add_length_le hpos
    have hne : delimiter.length ≠ 0 := by rcases hdelimiter with rfl | rfl <;> decide
    refine List.append_ne_nil_of_right_ne_nil _ (List.length_pos_iff.1 ?_)
    rw [List.length_take, List.length_drop]
    omega
  next_append more h := by
    obtain ⟨⟨pos, len⟩, hfound, heq⟩ := Option.map_eq_some_iff.1 h
    obtain ⟨rfl, rfl⟩ := Prod.mk.inj heq
    obtain ⟨delimiter, -, rfl, hpos⟩ := firstDelimiter_eq_some hfound
    have hle := position_add_length_le hpos
    rw [firstDelimiter_append hfound, Option.map_some, List.take_append_of_le_length (by omega),
      List.drop_append_of_le_length (by omega), List.drop_append_of_le_length (by omega),
      List.take_append_of_le_length (by rw [List.length_drop]; omega)]

/-- What is read of an event. -/
def readEvent (event : List UInt8 × List UInt8) : Except Utf8Error String :=
  (fromUtf8 event.1).map dataOf

theorem takeSseData_of_none {buffer : List UInt8} (h : sseFraming.next buffer = none) :
    takeSseData buffer = (.ok none, buffer) := by
  rw [takeSseData, Option.map_eq_none_iff.1 h]

theorem takeSseData_of_some {buffer rest : List UInt8} {event : List UInt8 × List UInt8}
    (h : sseFraming.next buffer = some (event, rest)) :
    takeSseData buffer = ((readEvent event).map some, rest) := by
  obtain ⟨⟨pos, len⟩, hfound, heq⟩ := Option.map_eq_some_iff.1 h
  obtain ⟨rfl, rfl⟩ := Prod.mk.inj heq
  have htake : (buffer.take (pos + len)).take pos = buffer.take pos := by
    rw [List.take_take, Nat.min_eq_left (Nat.le_add_right pos len)]
  simp only [takeSseData, hfound, htake, readEvent]
  cases fromUtf8 (buffer.take pos) <;> rfl

/-- The inner loop takes what the framing finds. -/
theorem takeAll_eq_drainUpTo (fatal : String → Bool) (n : Nat) (buffer : List UInt8) :
    takeAll fatal n buffer = sseFraming.drainUpTo readEvent (endsReading fatal) n buffer := by
  induction n generalizing buffer with
  | zero => rfl
  | succ n ih =>
    rw [takeAll, drainUpTo]
    cases hnext : sseFraming.next buffer with
    | none => simp only [takeSseData_of_none hnext]
    | some p =>
      obtain ⟨event, rest⟩ := p
      rw [takeSseData_of_some hnext]
      cases hread : readEvent event with
      | error e => simp [Except.map, endsReading, hread]
      | ok payload => simp [Except.map, endsReading, hread, ih]

theorem receive_eq_push (fatal : String → Bool) :
    receive fatal = sseFraming.push readEvent (endsReading fatal) := by
  funext r chunk
  rw [receive, push]
  simp only [takeAll_eq_drainUpTo]
  rfl

theorem runRequest_eq_readChunks (fatal : String → Bool) (chunks : List (List UInt8))
    (r : SseReader) :
    runRequest fatal chunks r =
      sseFraming.readChunks readEvent (endsReading fatal) chunks r := by
  induction chunks generalizing r with
  | nil => rfl
  | cons chunk rest ih => rw [runRequest, readChunks, ih, receive_eq_push]

/-! ## Reassembly -/

/-- An event and the delimiter after it, which is the first one there. -/
structure Delimited (event : List UInt8 × List UInt8) : Prop where
  delimiter : event.2 = lfDelimiter ∨ event.2 = crlfDelimiter
  first : ∀ i < event.1.length, ¬ DelimiterAt (event.1 ++ event.2) i

/-- What a reader has after `input`: the events in the input, one output for each, and the rest
of the input; and no delimiter is left in it unless the reading has ended. -/
structure SseReader.Reads (r : SseReader) (fatal : String → Bool) (input : List UInt8) : Prop where
  events : ∃ events : List (List UInt8 × List UInt8),
    (∀ event ∈ events, Delimited event) ∧
    r.outputs = events.map (fun event => (fromUtf8 event.1).map dataOf) ∧
    events.flatMap (fun event => event.1 ++ event.2) ++ r.buffer = input
  settled : r.outputs.any (endsReading fatal) = false → ∀ i, ¬ DelimiterAt r.buffer i

theorem delimited_of_next {buffer rest : List UInt8} {event : List UInt8 × List UInt8}
    (h : sseFraming.next buffer = some (event, rest)) : Delimited event := by
  obtain ⟨⟨pos, len⟩, hfound, heq⟩ := Option.map_eq_some_iff.1 h
  obtain ⟨rfl, rfl⟩ := Prod.mk.inj heq
  obtain ⟨delimiter, hdelimiter, rfl, hpos⟩ := firstDelimiter_eq_some hfound
  have htake := List.prefix_iff_eq_take.1 (position_eq_some hpos).2
  refine ⟨by simpa only [← htake] using hdelimiter, fun i hi hat => ?_⟩
  have hle : i < pos := hi.trans_le (List.length_take_le pos buffer)
  refine not_delimiterAt_of_lt hfound hle (hat.imp ?_ ?_) <;>
    exact fun hprefix => hprefix.trans <| by
      rw [← List.take_add, List.drop_take]
      exact List.take_prefix _ _

theorem receive_reads (fatal : String → Bool) (input : List UInt8) :
    SseReader.Reads (receive fatal {} input) fatal input := by
  rw [receive_eq_push, push_new]
  obtain ⟨events, houtputs, hbytes, hnext⟩ :=
    sseFraming.exists_frames readEvent (endsReading fatal) input
  refine ⟨⟨events, ?_, houtputs, hbytes⟩, fun h => ?_⟩
  · intro event hevent
    obtain ⟨b, r, hb⟩ := hnext event hevent
    exact delimited_of_next hb
  · exact not_delimiterAt_of_none (Option.map_eq_none_iff.1 (next_drain h))

/-- Cut into any chunks, a byte string is read as in one piece: the same outputs, the same
buffer, and every byte accounted for in order. A loop that leaves the rest of the stream unread
when the reading ends has the same outputs, and that rest is all its buffer lacks. -/
theorem receive_chunks (chunks : List (List UInt8)) (fatal : String → Bool) :
    chunks.foldl (receive fatal) {} = receive fatal {} chunks.flatten ∧
      SseReader.Reads (receive fatal {} chunks.flatten) fatal chunks.flatten ∧
      (runRequest fatal chunks {}).1.outputs = (receive fatal {} chunks.flatten).outputs ∧
      (runRequest fatal chunks {}).1.buffer ++ (runRequest fatal chunks {}).2.flatten =
        (receive fatal {} chunks.flatten).buffer := by
  have hwhole : chunks.foldl (receive fatal) {} = receive fatal {} chunks.flatten := by
    rw [receive_eq_push]
    exact foldl_push Reader.settled_new chunks
  have hloop := sseFraming.foldl_push_eq_readChunks readEvent (endsReading fatal) {} chunks
  rw [← receive_eq_push, ← runRequest_eq_readChunks, hwhole] at hloop
  refine ⟨hwhole, receive_reads fatal chunks.flatten, ?_, ?_⟩
  · exact (congrArg Reader.outputs hloop).symm
  · exact (congrArg Reader.buffer hloop).symm

end PagedServing
