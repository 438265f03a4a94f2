import PagedServing.Loadgen.Sse

/-! # Events as they are sent

Text in UTF-8 is read back by `str::from_utf8`, and an event with one `data` line of it by
`take_sse_data`.
-/

namespace PagedServing

open Framing

/-! ## UTF-8 -/

def utf8Bytes (text : List Char) : List UInt8 := text.flatMap String.utf8EncodeChar

section Sizes

variable {validUpTo : Nat} {b c d e : UInt8} {rest : List UInt8}

theorem fromUtf8From_one (hb : b < 0x80) : fromUtf8From validUpTo (b :: rest) =
    (fromUtf8From (validUpTo + 1) rest).map (scalarOf b.toNat [] :: ·) := by
  rw [fromUtf8From.eq_def]
  exact if_pos hb

theorem fromUtf8From_two (hb : 0xC2 ≤ b ∧ b ≤ 0xDF) (hc : isContinuation c = true) :
    fromUtf8From validUpTo (b :: c :: rest) =
      (fromUtf8From (validUpTo + 2) rest).map (scalarOf (b.toNat % 32) [c] :: ·) := by
  have hno : ¬ b < 0x80 := fun h => absurd (UInt8.lt_of_le_of_lt hb.1 h) (by decide)
  rw [fromUtf8From.eq_def]
  simp [hno, hb.1, hb.2, hc]

theorem fromUtf8From_three (hb : 0xE0 ≤ b ∧ b ≤ 0xEF) (hc : isSecondOfThree b c = true)
    (hd : isContinuation d = true) : fromUtf8From validUpTo (b :: c :: d :: rest) =
      (fromUtf8From (validUpTo + 3) rest).map (scalarOf (b.toNat % 16) [c, d] :: ·) := by
  have hno : ¬ b < 0x80 := fun h => absurd (UInt8.lt_of_le_of_lt hb.1 h) (by decide)
  have hno' : ¬ b ≤ 0xDF := fun h => absurd (UInt8.le_trans hb.1 h) (by decide)
  rw [fromUtf8From.eq_def]
  simp [hno, hno', hb.1, hb.2, hc, hd]

theorem fromUtf8From_four (hb : 0xF0 ≤ b ∧ b ≤ 0xF4) (hc : isSecondOfFour b c = true)
    (hd : isContinuation d = true) (he : isContinuation e = true) :
    fromUtf8From validUpTo (b :: c :: d :: e :: rest) =
      (fromUtf8From (validUpTo + 4) rest).map (scalarOf (b.toNat % 8) [c, d, e] :: ·) := by
  have hno : ¬ b < 0x80 := fun h => absurd (UInt8.lt_of_le_of_lt hb.1 h) (by decide)
  have hno' : ¬ b ≤ 0xDF := fun h => absurd (UInt8.le_trans hb.1 h) (by decide)
  have hno'' : ¬ b ≤ 0xEF := fun h => absurd (UInt8.le_trans hb.1 h) (by decide)
  rw [fromUtf8From.eq_def]
  simp [hno, hno', hno'', hb.1, hb.2, hc, hd, he]

end Sizes

theorem scalarOf_eq {c : Char} {lead : Nat} {tail : List UInt8}
    (h : tail.foldl (fun n b => 64 * n + b.toNat % 64) lead = c.val.toNat) :
    scalarOf lead tail = c := by
  rw [scalarOf, h]
  exact Char.ofNat_toNat c

theorem isContinuation_ofNat (n : Nat) : isContinuation (UInt8.ofNat (n % 64 + 0x80)) = true := by
  simp only [isContinuation, Bool.and_eq_true, decide_eq_true_eq, UInt8.le_iff_toNat_le,
    UInt8.toNat_ofNat', UInt8.reduceToNat]
  omega

theorem toNat_ofNat_of_lt {n : Nat} (h : n < 256) : (UInt8.ofNat n).toNat = n := by
  rw [UInt8.toNat_ofNat']
  exact Nat.mod_eq_of_lt h

/-- A character is read back from its bytes. -/
theorem fromUtf8From_utf8EncodeChar (validUpTo : Nat) (c : Char) (rest : List UInt8) :
    ∃ after, fromUtf8From validUpTo (String.utf8EncodeChar c ++ rest) =
      (fromUtf8From after rest).map (c :: ·) := by
  have hvalid : c.val.toNat < 0xD800 ∨ 0xDFFF < c.val.toNat ∧ c.val.toNat < 0x110000 := c.valid
  obtain ⟨v, hv⟩ : ∃ v, c.val.toNat = v := ⟨_, rfl⟩
  simp only [String.utf8EncodeChar, hv] at hvalid ⊢
  have hbyte (n : Nat) : (UInt8.ofNat (n % 64 + 0x80)).toNat = n % 64 + 0x80 :=
    toNat_ofNat_of_lt (by omega)
  split
  next h1 =>
    have hb := @toNat_ofNat_of_lt v (by omega)
    refine ⟨validUpTo + 1, ?_⟩
    rw [List.cons_append, List.nil_append, fromUtf8From_one (by
      rw [UInt8.lt_iff_toNat_lt, hb]; exact Nat.lt_succ_of_le h1), scalarOf_eq]
    exact hb.trans hv.symm
  next h1 =>
    split
    next h2 =>
      have hb := @toNat_ofNat_of_lt (v / 64 % 0x20 + 0xc0) (by omega)
      refine ⟨validUpTo + 2, ?_⟩
      rw [List.cons_append, List.cons_append, List.nil_append,
        fromUtf8From_two ?_ (isContinuation_ofNat v), scalarOf_eq]
      · simp only [List.foldl_cons, List.foldl_nil, hb, hbyte, hv]
        omega
      · simp only [UInt8.le_iff_toNat_le, hb, UInt8.reduceToNat]
        omega
    next h2 =>
      split
      next h3 =>
        have hb := @toNat_ofNat_of_lt (v / 4096 % 0x10 + 0xe0) (by omega)
        refine ⟨validUpTo + 3, ?_⟩
        rw [List.cons_append, List.cons_append, List.cons_append, List.nil_append,
          fromUtf8From_three ?_ ?_ (isContinuation_ofNat v), scalarOf_eq]
        · simp only [List.foldl_cons, List.foldl_nil, hb, hbyte, hv]
          omega
        · simp only [UInt8.le_iff_toNat_le, hb, UInt8.reduceToNat]
          omega
        · rw [isSecondOfThree]
          split
          next hfirst =>
            rw [← UInt8.toNat_inj, hb] at hfirst
            simp only [Bool.and_eq_true, decide_eq_true_eq, UInt8.le_iff_toNat_le, hbyte,
              UInt8.reduceToNat] at hfirst ⊢
            omega
          next =>
            split
            next hfirst =>
              rw [← UInt8.toNat_inj, hb] at hfirst
              simp only [Bool.and_eq_true, decide_eq_true_eq, UInt8.le_iff_toNat_le, hbyte,
                UInt8.reduceToNat] at hfirst ⊢
              omega
            next => exact isContinuation_ofNat (v / 64)
      next h3 =>
        have hb := @toNat_ofNat_of_lt (v / 262144 % 0x08 + 0xf0) (by omega)
        refine ⟨validUpTo + 4, ?_⟩
        rw [List.cons_append, List.cons_append, List.cons_append, List.cons_append, List.nil_append,
          fromUtf8From_four ?_ ?_ (isContinuation_ofNat (v / 64)) (isContinuation_ofNat v),
          scalarOf_eq]
        · simp only [List.foldl_cons, List.foldl_nil, hb, hbyte, hv]
          omega
        · simp only [UInt8.le_iff_toNat_le, hb, UInt8.reduceToNat]
          omega
        · rw [isSecondOfFour]
          split
          next hfirst =>
            rw [← UInt8.toNat_inj, hb] at hfirst
            simp only [Bool.and_eq_true, decide_eq_true_eq, UInt8.le_iff_toNat_le, hbyte,
              UInt8.reduceToNat] at hfirst ⊢
            omega
          next =>
            split
            next hfirst =>
              rw [← UInt8.toNat_inj, hb] at hfirst
              simp only [Bool.and_eq_true, decide_eq_true_eq, UInt8.le_iff_toNat_le, hbyte,
                UInt8.reduceToNat] at hfirst ⊢
              omega
            next => exact isContinuation_ofNat (v / 4096)

theorem fromUtf8From_utf8Bytes (validUpTo : Nat) (text : List Char) :
    fromUtf8From validUpTo (utf8Bytes text) = .ok text := by
  induction text generalizing validUpTo with
  | nil => rfl
  | cons c text ih =>
    obtain ⟨after, h⟩ := fromUtf8From_utf8EncodeChar validUpTo c (utf8Bytes text)
    exact h.trans (congrArg (Except.map (c :: ·)) (ih after))

theorem fromUtf8_utf8Bytes (text : List Char) : fromUtf8 (utf8Bytes text) = .ok text :=
  fromUtf8From_utf8Bytes 0 text

/-- A line feed comes from nowhere else. -/
theorem lineFeed_notMem_utf8EncodeChar {c : Char} (h : c ≠ '\n') :
    10 ∉ String.utf8EncodeChar c := by
  have hval : c.val.toNat ≠ 10 := fun heq => h (Char.ext (UInt32.toNat_inj.1 heq))
  rw [String.utf8EncodeChar]
  split
  next =>
    simp only [List.mem_singleton, ← UInt8.toNat_inj, UInt8.toNat_ofNat', UInt8.reduceToNat]
    omega
  next =>
    split
    next =>
      simp only [List.mem_cons, List.not_mem_nil, or_false, ← UInt8.toNat_inj,
        UInt8.toNat_ofNat', UInt8.reduceToNat]
      omega
    next =>
      split <;>
      · simp only [List.mem_cons, List.not_mem_nil, or_false, ← UInt8.toNat_inj,
          UInt8.toNat_ofNat', UInt8.reduceToNat]
        omega

theorem lineFeed_notMem_utf8Bytes {text : List Char} (h : '\n' ∉ text) : 10 ∉ utf8Bytes text := by
  intro hmem
  obtain ⟨c, hc, hbyte⟩ := List.mem_flatMap.1 hmem
  exact lineFeed_notMem_utf8EncodeChar (fun heq => h (heq ▸ hc)) hbyte

/-! ## One line -/

theorem linesFrom_of_notMem {line text : List Char} (h : '\n' ∉ text) (hne : line ++ text ≠ []) :
    linesFrom line text = [line.reverse ++ text] := by
  induction text generalizing line with
  | nil =>
    rw [List.append_nil] at hne
    simp [linesFrom, hne]
  | cons c rest ih =>
    obtain ⟨hc, hrest⟩ := List.ne_and_not_mem_of_not_mem_cons h
    rw [linesFrom, if_neg (Ne.symm hc), ih hrest (List.cons_ne_nil _ _)]
    simp

theorem lines_of_notMem {text : List Char} (h : '\n' ∉ text) (hne : text ≠ []) :
    lines text = [text] :=
  linesFrom_of_notMem h hne

/-- Text that comes back from a `data` line as it is. -/
structure OneLine (text : List Char) : Prop where
  no_lf : '\n' ∉ text
  no_cr : '\r' ∉ text
  head : ∀ c ∈ text.head?, isWhiteSpace c = false

theorem dataOf_data {text : List Char} (h : OneLine text) :
    dataOf ("data: ".toList ++ text) = String.ofList text := by
  have hmem (c : Char) (hc : c ∉ "data: ".toList) (htext : c ∉ text) :
      c ∉ "data: ".toList ++ text := fun hmem => (List.mem_append.1 hmem).elim hc htext
  have hcr := hmem '\r' (by decide) h.no_cr
  have hkept : ("data: ".toList ++ text).rdropWhile (· = '\r') = "data: ".toList ++ text := by
    refine List.rdropWhile_eq_self_iff.2 fun hne hlast => hcr ?_
    exact of_decide_eq_true hlast ▸ List.getLast_mem hne
  have hdrop : text.dropWhile isWhiteSpace = text := by
    cases text with
    | nil => rfl
    | cons c text => rw [List.dropWhile_cons, h.head c rfl]; rfl
  have hline : dataOfLine ("data: ".toList ++ text) = some text := by
    rw [dataOfLine, hkept]
    have hpre : ("data: ".toList ++ text).dropPrefix? "data:".toList = some (' ' :: text) :=
      List.dropPrefix?_eq_some_iff.2 ⟨"data:".toList, rfl, by decide⟩
    rw [hpre, Option.map_some, List.dropWhile_cons_of_pos (by decide), hdrop]
  rw [dataOf, lines_of_notMem (hmem '\n' (by decide) h.no_lf) (by simp),
    List.filterMap_cons_some hline]
  simp

theorem dataOf_comment {text : List Char} (h : '\n' ∉ text) : dataOf (':' :: text) = "" := by
  have hline : dataOfLine (':' :: text) = none := by
    rw [dataOfLine]
    cases hkept : (':' :: text).rdropWhile (· = '\r') with
    | nil => rfl
    | cons c rest =>
        have hpre := List.rdropWhile_prefix (· = '\r') (l := ':' :: text)
        rw [hkept] at hpre
        obtain rfl := (List.cons_prefix_cons.1 hpre).1
        rfl
  rw [dataOf, lines_of_notMem (List.not_mem_cons_of_ne_of_not_mem (by decide) h) (by simp),
    List.filterMap_cons_none hline]
  rfl

/-! ## Whole events -/

theorem firstDelimiter_lineFeeds {front : List UInt8} (h : 10 ∉ front) :
    firstDelimiter (front ++ lfDelimiter) = some (front.length, 2) := by
  have hlf : position lfDelimiter (front ++ lfDelimiter) = some front.length :=
    position_of_notMem h []
  have hcrlf : position crlfDelimiter (front ++ lfDelimiter) = none := by
    by_contra hsome
    obtain ⟨q, hq⟩ := Option.ne_none_iff_exists'.1 hsome
    have hle := position_add_length_le hq
    have hfeed := getElem?_of_prefix_drop (position_eq_some hq).2
      (by decide : 1 < crlfDelimiter.length)
    simp only [List.length_append, crlfDelimiter, lfDelimiter, List.length_cons,
      List.length_nil] at hle
    rw [List.getElem?_append_left (by omega)] at hfeed
    exact h (List.mem_of_getElem? hfeed)
  simp [firstDelimiter, hlf, hcrlf, minByKey]

theorem next_lineFeeds {front : List UInt8} (h : 10 ∉ front) :
    sseFraming.next (sseFraming.bytes (front, lfDelimiter)) = some ((front, lfDelimiter), []) := by
  change (firstDelimiter (front ++ lfDelimiter)).map _ = _
  rw [firstDelimiter_lineFeeds h]
  change some ((((front ++ lfDelimiter).take front.length,
    ((front ++ lfDelimiter).drop front.length).take 2), (front ++ lfDelimiter).drop _)) = _
  rw [List.take_left, List.drop_left]
  simp [lfDelimiter]

theorem readEvent_utf8Bytes (text : List Char) (delimiter : List UInt8) :
    readEvent (utf8Bytes text, delimiter) = .ok (dataOf text) :=
  congrArg (Except.map dataOf) (fromUtf8_utf8Bytes text)

end PagedServing
