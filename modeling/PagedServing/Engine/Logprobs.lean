import PagedServing.Engine.Records
import PagedServing.Engine.Refinement

/-! # Logprobs and their tokens

The tokens of a request and its logprobs are two lists that grow apart when an answer has
no entry for a token. Chunks read the last entry, reports pair the lists by position.
-/

namespace PagedServing

open Scheduler Relation LabelledLog

/-- Without its gaps a list starts as it is if and only if nothing follows a gap. -/
theorem take_reduceOption_iff {α : Type} (l : List (Option α)) (k : Nat) :
    (∀ (j : Nat) (a : α), (l.reduceOption.take k)[j]? = some a → l[j]? = some (some a)) ↔
      ∀ m n : Nat, m < k → m < n → l[m]? = some none → ∀ a, l[n]? ≠ some (some a) := by
  induction l generalizing k with
  | nil => simp
  | cons first rest ih =>
    cases k with
    | zero => simp
    | succ k =>
      cases first with
      | none =>
          rw [List.reduceOption_cons_of_none]
          constructor
          · intro h m n _ hmn _ a ha
            obtain ⟨n, rfl⟩ := Nat.exists_eq_succ_of_ne_zero (Nat.ne_zero_of_lt hmn)
            have hmem : a ∈ rest.reduceOption :=
              List.reduceOption_mem_iff.2 (List.mem_of_getElem? ha)
            obtain ⟨b, more, hlist⟩ := List.exists_cons_of_ne_nil (List.ne_nil_of_mem hmem)
            have hb := h 0 b (by rw [hlist]; rfl)
            simp at hb
          · intro h j a hja
            have hmem : a ∈ rest.reduceOption :=
              List.mem_of_mem_take (List.mem_of_getElem? hja)
            obtain ⟨n, hn⟩ := List.mem_iff_getElem?.1 (List.reduceOption_mem_iff.1 hmem)
            exact absurd hn (h 0 (n + 1) (Nat.succ_pos k) (Nat.succ_pos n) rfl a)
      | some b =>
          rw [List.reduceOption_cons_of_some, List.take_succ_cons]
          have hrest := ih k
          constructor
          · intro h m n hm hmn hnone a ha
            cases m with
            | zero => cases hnone
            | succ m =>
                obtain ⟨n, rfl⟩ := Nat.exists_eq_succ_of_ne_zero (Nat.ne_zero_of_lt hmn)
                exact hrest.1 (fun j a hja => h (j + 1) a hja) m n (Nat.lt_of_succ_lt_succ hm)
                  (Nat.lt_of_succ_lt_succ hmn) hnone a ha
          · intro h j a hja
            cases j with
            | zero => exact congrArg some hja
            | succ j =>
                exact hrest.2 (fun m n hm hmn => h (m + 1) (n + 1) (Nat.succ_lt_succ hm)
                  (Nat.succ_lt_succ hmn)) j a hja

/-! ## What the rows bring -/

/-- The logprobs that come with a token. -/
def OutputRow.entry (row : OutputRow) : Option TokenLogprobs := row.logprobs.join

/-- The logprobs that these rows leave in a request. -/
def Request.carried (r : Request) (rows : List OutputRow) : List TokenLogprobs :=
  if r.params.logprobs.isSome then (rows.map OutputRow.entry).reduceOption else []

theorem Request.carried_concat (r : Request) (rows : List OutputRow) (row : OutputRow) :
    r.carried (rows ++ [row]) =
      r.carried rows ++ if r.params.logprobs.isSome then row.entry.toList else [] := by
  rw [carried, carried, List.map_append, List.reduceOption_append]
  split
  · cases h : row.entry <;> simp [List.reduceOption, h]
  · rfl

theorem Request.length_carried_le (r : Request) (rows : List OutputRow) :
    (r.carried rows).length ≤ (rows.map (·.token)).length := by
  rw [carried, List.length_map]
  split
  · exact (List.reduceOption_length_le _).trans (List.length_map _).le
  · exact Nat.zero_le _

section Rows

variable {τ δ : Type} [TokenizerTrait τ δ] {x : Setting τ} {r : Request} {rows : List OutputRow}

/-- How many of the tokens that end a request are reported. -/
def Setting.kept (x : Setting τ) (r : Request) (out : List TokenId) : Nat :=
  if x.finishes (r.withOutput out) then out.length
  else ((r.withOutput out).stopKeep x.tokenizer).getD out.length

/-- What the rows of a request say about its logprobs, in each place. -/
def Setting.LogsAt (x : Setting τ) (r : Request) (rows : List OutputRow) : Place δ → Prop
  | .waiting _ => rows = []
  | .running seq _ => seq.request.logprobs = r.carried rows
  | .ended req _ =>
      req.params = r.params ∧
        req.outputTokens = (rows.map (·.token)).take (x.kept r (rows.map (·.token))) ∧
          req.logprobs = (r.carried rows).take (x.kept r (rows.map (·.token)))
  | .reported report =>
      report.outputTokens = (rows.map (·.token)).take (x.kept r (rows.map (·.token))) ∧
        report.logprobs.getD [] = (r.carried rows).take (x.kept r (rows.map (·.token)))

theorem Setting.kept_of_open {out : List TokenId} (h : out ≠ [] → x.Open r out) :
    out.take (x.kept r out) = out ∧
      ∀ l : List TokenLogprobs, l.length ≤ out.length → l.take (x.kept r out) = l := by
  by_cases hout : out = []
  · subst hout
    refine ⟨List.take_nil, fun l hl => ?_⟩
    rw [List.eq_nil_of_length_eq_zero (Nat.le_zero.1 hl), List.take_nil]
  · have hopen := h hout
    have hkept : x.kept r out = out.length := by
      rw [kept, hopen.finishes, hopen.stopKeep]
      rfl
    rw [hkept]
    exact ⟨List.take_length, fun l hl => List.take_of_length_le hl⟩

/-- What is scheduled has the logprobs of its rows. -/
theorem Course.logs_scheduled {place : Place δ} {seq : Sequence} {entry : BatchEntry} {decoder : δ}
    (hr : x.Admits r) (h : x.LogsAt r rows place)
    (hsched : place.Scheduled x.config r seq entry decoder) :
    seq.request.logprobs = r.carried rows := by
  cases hsched with
  | start =>
      have hrows : rows = [] := h
      have hfresh : r.logprobs = [] := by
        rw [hr.fresh]
        rfl
      rw [hrows, Request.carried]
      refine hfresh.trans ?_
      split <;> rfl
  | step _ hgrown =>
      rcases hgrown with ⟨-, rfl⟩ | ⟨-, ref, rfl⟩
      · exact h
      · exact h

variable [IncrementalDecoder δ] {v : Record δ} {chunks : List StreamedChunk}

/-- A row brings its token and its logprobs. -/
theorem Setting.Between.logprobs_next {out : List TokenId} {seq : Sequence} {decoder : δ}
    {texts : List String} (hb : x.Between r out seq decoder texts)
    (h : seq.request.logprobs = r.carried rows) (row : OutputRow) :
    (seq.next row).request.logprobs = r.carried (rows ++ [row]) := by
  obtain ⟨token, logprobs⟩ := row
  rw [Request.carried_concat, ← h, ← hb.after.params]
  simp only [Sequence.next, Sequence.appendToken, OutputRow.entry]
  cases seq.request.params.logprobs with
  | none => simp
  | some k => rcases logprobs with _ | _ | entry <;> simp

theorem Course.logs_settle {seq : Sequence} {decoder : δ} {texts : List String}
    (hb : x.Between r (rows.map (·.token)) seq decoder texts)
    (h : seq.request.logprobs = r.carried rows) (row : OutputRow) :
    x.LogsAt r (rows ++ [row]) (x.settle (seq.next row) decoder row.token).1 := by
  have hlogprobs := hb.logprobs_next h row
  have hparams : (seq.next row).request.params = r.params := hb.after.params
  have hafter : r.After ((rows ++ [row]).map (·.token)) (seq.next row).request := by
    refine ⟨hb.after.id, hb.after.inputTokens, hparams, ?_, hb.after.stopSequenceHit⟩
    rw [List.map_append]
    exact congrArg (· ++ [row.token]) hb.after.outputTokens
  have hlength := r.length_carried_le (rows ++ [row])
  have hfinishes := hafter.finishes (x := x)
  have hstopKeep := hafter.stopKeep (x := x)
  -- a finished request keeps all of its tokens, a stopped one those before the stop string
  cases hfin : x.finishes (seq.next row).request with
  | true =>
      have hkept : x.kept r ((rows ++ [row]).map (·.token)) =
          ((rows ++ [row]).map (·.token)).length := by
        rw [Setting.kept, ← hfinishes, hfin, if_pos rfl]
      have hended : ∀ d, x.LogsAt r (rows ++ [row])
          (.ended { (seq.next row).request with state := .completed } d : Place δ) := by
        intro d
        rw [Setting.LogsAt, hkept, List.take_length, List.take_of_length_le hlength]
        exact ⟨hparams, hafter.outputTokens, hlogprobs⟩
      cases hstop : (seq.next row).request.stopKeep x.tokenizer with
      | some keep =>
          rw [Setting.settle_finished_hit decoder row.token hfin hstop]
          exact hended _
      | none =>
          rw [Setting.settle_finished decoder row.token hfin hstop]
          exact hended _
  | false =>
      cases hstop : (seq.next row).request.stopKeep x.tokenizer with
      | some keep =>
          have hkept : x.kept r ((rows ++ [row]).map (·.token)) = keep := by
            rw [Setting.kept, ← hfinishes, ← hstopKeep, hfin, hstop]
            rfl
          rw [Setting.settle_hit decoder row.token hfin hstop, Setting.LogsAt, hkept]
          exact ⟨hparams, congrArg (List.take keep) hafter.outputTokens,
            congrArg (List.take keep) hlogprobs⟩
      | none =>
          rw [Setting.settle_open decoder row.token hfin hstop]
          cases (IncrementalDecoder.push decoder row.token).1 with
          | ok pushed => exact hlogprobs
          | error message =>
              obtain ⟨htokens, hentries⟩ := Setting.kept_of_open (x := x) (r := r) fun _ =>
                ⟨hfinishes.symm.trans hfin, hstopKeep.symm.trans hstop⟩
              exact ⟨hparams, hafter.outputTokens.trans htokens.symm,
                hlogprobs.trans (hentries _ hlength).symm⟩

theorem Record.Steps.logs (hr : x.Admits r) (h : Record.Steps x r (Record.start x) v) :
    x.LogsAt r v.rows v.place := by
  induction h with
  | refl => rfl
  | @tail v v' hsteps hstep ih =>
    obtain ⟨texts, hallows⟩ := Record.Steps.allows hr hsteps
    obtain ⟨place, rows, chunks, errors⟩ := v
    cases hstep with
    | abort reason hlive =>
        cases hlive with
        | waiting =>
            have hrows : rows = [] := ih
            have hfresh : r.logprobs = [] ∧ r.outputTokens = [] := by
              rw [hr.fresh]
              exact ⟨rfl, rfl⟩
            subst hrows
            refine ⟨rfl, hfresh.2.trans List.take_nil.symm, hfresh.1.trans ?_⟩
            rw [List.eq_nil_of_length_eq_zero (Nat.le_zero.1 (r.length_carried_le [])),
              List.take_nil]
        | running seq =>
            obtain ⟨-, hb⟩ := hallows
            obtain ⟨htokens, hentries⟩ := Setting.kept_of_open hb.opens
            exact ⟨hb.after.params, hb.after.outputTokens.trans htokens.symm,
              Eq.trans ih (hentries _ (r.length_carried_le rows)).symm⟩
    | serve row hsched =>
        exact Course.logs_settle (Course.between_of_scheduled hr hallows hsched)
          (Course.logs_scheduled hr ih hsched) row
    | @report req decoder hplace =>
        dsimp only at hplace
        rw [hplace] at ih
        obtain ⟨hparams, htokens, hlogprobs⟩ := ih
        have hoff : req.params.logprobs.isSome = false → req.logprobs = [] := by
          intro hoff
          rw [hlogprobs, Request.carried, ← hparams, if_neg (by simp [hoff]), List.take_nil]
        refine ⟨htokens, Eq.trans ?_ hlogprobs⟩
        cases hon : req.params.logprobs.isSome with
        | false => simp [Request.report, hon, hoff hon]
        | true =>
            by_cases hnil : req.logprobs = [] <;> simp [Request.report, hon, hnil]

/-! ## What is streamed -/

/-- The last of these tokens is streamed as text. -/
def Setting.streams (x : Setting τ) (r : Request) (out : List TokenId) : Bool :=
  ((r.withOutput out).stopKeep x.tokenizer).isNone && out.getLast?.any fun token =>
    !(InferenceEngine.pushText (some (x.decoded out.dropLast : List String × δ).2) token).isEmpty

/-- The logprobs in the chunk of the last of these rows. -/
def Setting.note (x : Setting τ) (r : Request) (rows : List OutputRow) :
    Option (Nat × TokenLogprobs) :=
  if x.streams r (rows.map (·.token)) then (r.carried rows).getLast?.map (Prod.mk rows.length)
  else none

def Setting.notes (x : Setting τ) (r : Request) (rows : List OutputRow) :
    List (Nat × TokenLogprobs) :=
  (List.range rows.length).filterMap fun n => x.note r (rows.take (n + 1))

theorem Setting.notes_concat (x : Setting τ) (r : Request) (rows : List OutputRow)
    (row : OutputRow) :
    x.notes r (rows ++ [row]) = x.notes r rows ++ (x.note r (rows ++ [row])).toList := by
  have hbefore : (List.range rows.length).filterMap
      (fun n => x.note r ((rows ++ [row]).take (n + 1))) = x.notes r rows := by
    refine List.filterMap_congr fun n hn => ?_
    rw [List.take_append_of_le_length (List.mem_range.1 hn)]
  have hlast : (rows ++ [row]).take (rows.length + 1) = rows ++ [row] :=
    List.take_of_length_le (by simp)
  rw [notes, List.length_append, List.length_singleton, List.range_succ, List.filterMap_append,
    hbefore, List.filterMap_cons, hlast]
  cases x.note r (rows ++ [row]) <;> rfl

/-- The logprobs that a chunk carries, and its position. -/
def StreamedChunk.note (c : StreamedChunk) : Option (Nat × TokenLogprobs) :=
  c.logprobs.map (Prod.mk c.position)

theorem Course.lastLogprobs_next {seq : Sequence} {decoder : δ} {texts : List String}
    (hb : x.Between r (rows.map (·.token)) seq decoder texts)
    (hlogs : seq.request.logprobs = r.carried rows) (row : OutputRow) :
    (seq.next row).request.lastLogprobs = (r.carried (rows ++ [row])).getLast? := by
  have hparams : (seq.next row).request.params = r.params := hb.after.params
  rw [Request.lastLogprobs, hb.logprobs_next hlogs row, hparams]
  split
  · rfl
  next hoff => rw [Request.carried, if_neg hoff, List.getLast?_nil]

/-- A served token is streamed unless its decoder holds it back or a stop string ends with it. -/
theorem Course.streams_next {seq : Sequence} {decoder : δ} {texts : List String}
    (hb : x.Between r (rows.map (·.token)) seq decoder texts) (row : OutputRow) :
    x.streams r ((rows ++ [row]).map (·.token)) =
      !(InferenceEngine.pushText (x.feeds (seq.next row) decoder) row.token).isEmpty := by
  have hafter : r.After ((rows ++ [row]).map (·.token)) (seq.next row).request := by
    refine ⟨hb.after.id, hb.after.inputTokens, hb.after.params, ?_, hb.after.stopSequenceHit⟩
    rw [List.map_append]
    exact congrArg (· ++ [row.token]) hb.after.outputTokens
  have hlast : ((rows ++ [row]).map (·.token)).getLast? = some row.token := by simp
  have hbefore : ((rows ++ [row]).map (·.token)).dropLast = rows.map (·.token) := by simp
  rw [Setting.streams, hlast, hbefore, ← hafter.stopKeep, ← hb.decoder, Setting.feeds]
  cases hstop : (seq.next row).request.stopKeep x.tokenizer with
  | none => simp
  | some keep => simp [InferenceEngine.pushText]

theorem InferenceEngine.pushText_cases (decoder : Option δ) (token : TokenId) :
    pushText decoder token = [] ∨ ∃ text, pushText decoder token = [text] := by
  cases decoder with
  | none => exact .inl rfl
  | some d =>
      rcases hpush : (IncrementalDecoder.push d token).1 with message | _ | text
      · simp [pushText, hpush, pushedText]
      · simp [pushText, hpush, pushedText]
      · by_cases htext : text = "" <;> simp [pushText, hpush, pushedText, htext]

/-- The chunk of a served token. -/
theorem Course.note_next {seq : Sequence} {decoder : δ} {texts : List String}
    (hb : x.Between r (rows.map (·.token)) seq decoder texts)
    (hlogs : seq.request.logprobs = r.carried rows) (row : OutputRow) :
    ((x.pushedChunks (seq.next row) decoder row.token).map
      fun c => (⟨rows.length + 1, c.1, c.2⟩ : StreamedChunk)).filterMap StreamedChunk.note =
      (x.note r (rows ++ [row])).toList := by
  rw [Setting.note, Course.streams_next hb row, ← Course.lastLogprobs_next hb hlogs row,
    Setting.pushedChunks, List.length_append, List.length_singleton]
  rcases InferenceEngine.pushText_cases (x.feeds (seq.next row) decoder) row.token with
    hnone | ⟨text, hsome⟩
  · simp [hnone]
  · cases hlast : (seq.next row).request.lastLogprobs <;> simp [hsome, StreamedChunk.note]

/-- The logprobs in the chunks are the last ones that the rows had brought by then. -/
theorem Record.Steps.notes (hr : x.Admits r) (h : Record.Steps x r (Record.start x) v) :
    v.chunks.filterMap StreamedChunk.note = x.notes r v.rows := by
  induction h with
  | refl => rfl
  | @tail v v' hsteps hstep ih =>
    obtain ⟨texts, hallows⟩ := Record.Steps.allows hr hsteps
    have hlogs := Record.Steps.logs hr hsteps
    cases hstep with
    | abort => exact ih
    | serve row hsched =>
        rw [List.filterMap_append, Setting.notes_concat, ih, Course.note_next
          (Course.between_of_scheduled hr hallows hsched) (Course.logs_scheduled hr hlogs hsched)]
    | report =>
        have htail : ∀ (position : Nat) (texts : List String), (texts.map fun text =>
            (⟨position, text, none⟩ : StreamedChunk)).filterMap StreamedChunk.note = [] := by
          intro position texts
          rw [List.filterMap_map, List.filterMap_eq_nil_iff]
          exact fun _ _ => rfl
        rw [List.filterMap_append, ih, htail, List.append_nil]

/-! ## Whose logprobs they are -/

/-- The logprobs of a chunk came with the token that it was produced from. -/
def StreamedChunk.Attached (c : StreamedChunk) (rows : List OutputRow) : Prop :=
  ∀ e ∈ c.logprobs, ∃ (k : Nat) (row : OutputRow),
    c.position = k + 1 ∧ rows[k]? = some row ∧ row.entry = some e

/-- Each of the logprobs of a report came with the token of its position. -/
def CompletedRequest.Attached (report : CompletedRequest) (rows : List OutputRow) : Prop :=
  ∀ (j : Nat) (e : TokenLogprobs), (report.logprobs.getD [])[j]? = some e →
    ∃ row, rows[j]? = some row ∧ row.entry = some e ∧ report.outputTokens[j]? = some row.token

/-- After the first entry all tokens that are streamed have one. -/
def Setting.StreamsOwn (x : Setting τ) (r : Request) (rows : List OutputRow) : Prop :=
  r.params.logprobs.isSome = true → ∀ (m n : Nat) (first row : OutputRow), m < n →
    rows[m]? = some first → rows[n]? = some row →
      x.streams r ((rows.take (n + 1)).map (·.token)) = true → first.entry ≠ none → row.entry ≠ none

/-- Before the last entry all tokens that are reported have one. -/
def Setting.KeepsOwn (x : Setting τ) (r : Request) (rows : List OutputRow) : Prop :=
  r.params.logprobs.isSome = true → ∀ (m n : Nat) (row last : OutputRow), m < n →
    rows[m]? = some row → rows[n]? = some last →
      m < x.kept r (rows.map (·.token)) → last.entry ≠ none → row.entry ≠ none

private theorem getElem?_entry {rows : List OutputRow} {n : Nat} {entry : Option TokenLogprobs} :
    (rows.map OutputRow.entry)[n]? = some entry ↔
      ∃ row, rows[n]? = some row ∧ row.entry = entry := by
  rw [List.getElem?_map, Option.map_eq_some_iff]

private theorem getElem?_of_take {α : Type} {l : List α} {j k : Nat} {a : α}
    (h : (l.take k)[j]? = some a) : j < k ∧ l[j]? = some a := by
  rw [List.getElem?_take] at h
  split at h
  next hlt => exact ⟨hlt, h⟩
  next => cases h

private theorem carried_on {r : Request} (hon : r.params.logprobs.isSome = true)
    (rows : List OutputRow) : r.carried rows = (rows.map OutputRow.entry).reduceOption :=
  if_pos hon

omit [IncrementalDecoder δ] in
theorem Setting.LogsAt.attached_iff {report : CompletedRequest}
    (h : x.LogsAt r rows (.reported report : Place δ)) :
    report.Attached rows ↔ x.KeepsOwn r rows := by
  obtain ⟨htokens, hlogprobs⟩ := h
  rw [CompletedRequest.Attached, hlogprobs, htokens]
  cases hon : r.params.logprobs.isSome with
  | false => simp [Setting.KeepsOwn, Request.carried, hon]
  | true =>
      have howns := take_reduceOption_iff (rows.map OutputRow.entry)
        (x.kept r (rows.map (·.token)))
      rw [carried_on hon]
      constructor
      · intro hall _ m n row last hmn hrow hlast hm hsome hnone
        obtain ⟨e, he⟩ := Option.ne_none_iff_exists'.1 hsome
        refine howns.1 (fun j e hj => ?_) m n hm hmn (getElem?_entry.2 ⟨row, hrow, hnone⟩) e
          (getElem?_entry.2 ⟨last, hlast, he⟩)
        obtain ⟨row', hrow', hentry, -⟩ := hall j e hj
        exact getElem?_entry.2 ⟨row', hrow', hentry⟩
      · intro hkeeps j e hj
        have hown := howns.2 (fun m n hm hmn hnone e hsome => ?_) j e hj
        · obtain ⟨row, hrow, hentry⟩ := getElem?_entry.1 hown
          refine ⟨row, hrow, hentry, ?_⟩
          rw [List.getElem?_take_of_lt (getElem?_of_take hj).1, List.getElem?_map,
            hrow]
          rfl
        · obtain ⟨row, hrow, hrowNone⟩ := getElem?_entry.1 hnone
          obtain ⟨last, hlast, hlastSome⟩ := getElem?_entry.1 hsome
          exact hkeeps hon m n row last hmn hrow hlast hm (by simp [hlastSome]) hrowNone

theorem StreamedChunk.attached_iff {chunks : List StreamedChunk}
    (h : chunks.filterMap note = x.notes r rows) :
    (∀ c ∈ chunks, c.Attached rows) ↔ x.StreamsOwn r rows := by
  constructor
  · intro hall hon m n first row hmn hfirst hrow hstreams hsome hnone
    have htake : (rows.take (n + 1))[m]? = some first := by
      rw [List.getElem?_take_of_lt (hmn.trans n.lt_succ_self)]
      exact hfirst
    obtain ⟨e, he⟩ := Option.ne_none_iff_exists'.1 hsome
    have hmem : e ∈ r.carried (rows.take (n + 1)) := by
      rw [carried_on hon, List.reduceOption_mem_iff]
      exact List.mem_of_getElem? (getElem?_entry.2 ⟨first, htake, he⟩)
    obtain ⟨last, hlast⟩ :=
      Option.isSome_iff_exists.1 (List.getLast?_isSome.2 (List.ne_nil_of_mem hmem))
    have hlength : n < rows.length := (List.getElem?_eq_some_iff.1 hrow).1
    have hnote : (n + 1, last) ∈ x.notes r rows := by
      refine List.mem_filterMap.2 ⟨n, List.mem_range.2 hlength, ?_⟩
      rw [Setting.note, if_pos hstreams, hlast, List.length_take_of_le hlength]
      rfl
    rw [← h] at hnote
    obtain ⟨c, hc, hcarries⟩ := List.mem_filterMap.1 hnote
    obtain ⟨_, hlogprobs, heq⟩ := Option.map_eq_some_iff.1 hcarries
    obtain ⟨hposition, rfl⟩ := Prod.mk.inj heq
    obtain ⟨k, row', hk, hrow', hentry⟩ := hall c hc _ hlogprobs
    obtain rfl := Nat.succ_injective (hposition.symm.trans hk)
    rw [hrow, Option.some_inj] at hrow'
    rw [← hrow', hnone] at hentry
    cases hentry
  · intro howns c hc e he
    have hmem : (c.position, e) ∈ x.notes r rows := by
      rw [← h]
      exact List.mem_filterMap.2 ⟨c, hc, Option.map_eq_some_iff.2 ⟨e, he, rfl⟩⟩
    obtain ⟨k, hk, hnote⟩ := List.mem_filterMap.1 hmem
    have hle : k < rows.length := List.mem_range.1 hk
    rw [Setting.note] at hnote
    split at hnote
    next hstreams =>
      obtain ⟨_, hlast, heq⟩ := Option.map_eq_some_iff.1 hnote
      obtain ⟨hposition, rfl⟩ := Prod.mk.inj heq
      rw [List.length_take_of_le hle] at hposition
      have hrow : rows[k]? = some rows[k] := List.getElem?_eq_getElem hle
      refine ⟨k, rows[k], hposition.symm, hrow, ?_⟩
      rw [List.take_succ_eq_append_getElem hle, Request.carried_concat] at hlast
      have hon : r.params.logprobs.isSome = true := by
        by_contra hoff
        simp [Request.carried, hoff] at hlast
      rw [if_pos hon] at hlast
      cases hentry : rows[k].entry with
      | some e' =>
          rw [hentry] at hlast
          simpa using hlast
      | none =>
          -- the entry is an earlier one, so this token should have its own
          rw [hentry, Option.toList_none, List.append_nil, carried_on hon] at hlast
          obtain ⟨m, hm⟩ := List.mem_iff_getElem?.1
            (List.reduceOption_mem_iff.1 (List.mem_of_getLast? hlast))
          obtain ⟨first, hfirst, hsome⟩ := getElem?_entry.1 hm
          obtain ⟨hmk, hfirst⟩ := getElem?_of_take hfirst
          exact absurd hentry
            (howns hon m k first rows[k] hmk hfirst hrow hstreams (by simp [hsome]))
    next => cases hnote

end Rows

/-! ## Runs -/

namespace Session

variable {σ τ δ : Type} [GPUExecutorTrait σ] [IncrementalDecoder δ] [TokenizerTrait τ δ]

/-- The chunks that a run streams for a request. -/
def chunksOf (s : Session σ τ δ) (ops : List EngineOp) (id : RequestId) : List StreamedChunk :=
  under id (seen stepChunks s ops)

variable {config : EngineConfig} {tokenizer : τ} {gpuExecutor : σ}

/-- The chunks of a request, and its report, carry the logprobs of their own tokens if and only
if the answers leave no gap: before a streamed token, or after a reported one. -/
theorem attached_iff_of_run (hvalid : config.validate = .ok ()) (ops : List EngineOp)
    {r : Request} (hr : r ∈ ((new config tokenizer gpuExecutor).run ops).admitted) :
    ((∀ c ∈ (new config tokenizer gpuExecutor).chunksOf ops r.id,
        c.Attached (rowsOf ((new config tokenizer gpuExecutor).run ops).calls r.id)) ↔
      (settingOf config tokenizer).StreamsOwn r
        (rowsOf ((new config tokenizer gpuExecutor).run ops).calls r.id)) ∧
      ∀ report ∈ ((new config tokenizer gpuExecutor).run ops).reports, report.requestId = r.id →
        (report.Attached (rowsOf ((new config tokenizer gpuExecutor).run ops).calls r.id) ↔
          (settingOf config tokenizer).KeepsOwn r
            (rowsOf ((new config tokenizer gpuExecutor).run ops).calls r.id)) := by
  have hreach : ((new config tokenizer gpuExecutor).run ops).Reachable config tokenizer
    gpuExecutor := ⟨hvalid, ops, rfl⟩
  have hi := hreach.inv_any.1
  have hadmits := (hi.admits r hr).1
  have hdocumented := documented_run hvalid tokenizer gpuExecutor ops
  constructor
  · obtain ⟨v, hsteps, hv⟩ := hdocumented.records r hr
    have hnotes := Record.Steps.notes hadmits hsteps
    rw [hv.rows, hv.chunks] at hnotes
    exact StreamedChunk.attached_iff hnotes
  · intro report hreport hid
    obtain ⟨v, hsteps, hv, hplace⟩ := hi.record hdocumented hr hreport hid
    have hlogs := Record.Steps.logs hadmits hsteps
    rw [hplace, hv.rows] at hlogs
    exact hlogs.attached_iff

end Session

/-! ## A backend that leaves a gap -/

deriving instance DecidableEq for OutputRow

/-- An accepted answer whose logprobs are those of its tokens. -/
def BackendCall.namesTokens : BackendCall → Bool
  | .execute b (.ok o) =>
      (validateExecutionOutput b o).toBool &&
        o.rows.all fun p => p.2.entry.all fun e => e.token == p.2.token
  | _ => true

/-- A backend that numbers its tokens, without logprobs for those of some calls. -/
structure NumberingBackend where
  served : Nat
  gaps : List Nat

namespace NumberingBackend

def tokenLogprobs (backend : NumberingBackend) : Option TokenLogprobs :=
  if backend.served ∈ backend.gaps then none
  else some ⟨40 + backend.served, .finite (-1), []⟩

instance : GPUExecutorTrait NumberingBackend where
  execute backend batch :=
    (.ok
      { seqIds := batch.seqIds
        nextTokens := batch.seqIds.map fun _ => 40 + backend.served
        logprobs := batch.seqIds.map fun _ => backend.tokenLogprobs },
      { backend with served := backend.served + 1 })

end NumberingBackend

namespace Session

def gapStart : Session NumberingBackend SimpleTokenizer SimpleDecoder :=
  new smallConfig SimpleTokenizer.new ⟨0, [1]⟩

def gapOps : List EngineOp :=
  [.submitRequest "a" { maxTokens := 3, logprobs := some 0 }, .stepEvents, .stepEvents,
    .stepEvents]

def gapRequest : Request := Request.new 1 [1, 69, 2] { maxTokens := 3, logprobs := some 0 }

def gapReport : CompletedRequest where
  requestId := 1
  inputText := some "a"
  outputText := "DEF"
  outputTokens := [40, 41, 42]
  success := true
  error := none
  finishReason := some .length
  logprobs := some [⟨40, .finite (-1), []⟩, ⟨42, .finite (-1), []⟩]

def gapRows : List OutputRow :=
  [⟨40, some (some ⟨40, .finite (-1), []⟩)⟩, ⟨41, some none⟩,
    ⟨42, some (some ⟨42, .finite (-1), []⟩)⟩]

def gapChunks : List StreamedChunk :=
  [⟨1, "D", some ⟨40, .finite (-1), []⟩⟩, ⟨2, "E", some ⟨40, .finite (-1), []⟩⟩,
    ⟨3, "F", some ⟨42, .finite (-1), []⟩⟩]

theorem attached_iff_of_run_gap :
    ((∀ c ∈ gapChunks, c.Attached gapRows) ↔
      (settingOf smallConfig SimpleTokenizer.new).StreamsOwn gapRequest gapRows) ∧
      (gapReport.Attached gapRows ↔
        (settingOf smallConfig SimpleTokenizer.new).KeepsOwn gapRequest gapRows) := by
  have hr : gapRequest ∈ (gapStart.run gapOps).admitted := by decide +kernel
  have hreport : gapReport ∈ (gapStart.run gapOps).reports := by decide +kernel
  have hrows : rowsOf (gapStart.run gapOps).calls 1 = gapRows := by decide +kernel
  have hchunks : gapStart.chunksOf gapOps 1 = gapChunks := by decide +kernel
  obtain ⟨hstreamed, hreported⟩ := attached_iff_of_run (by decide +kernel) gapOps hr
  rw [← hchunks, ← hrows]
  exact ⟨hstreamed, hreported gapReport hreport rfl⟩

/-- A chunk whose own token came without logprobs carries those of the token before. -/
theorem not_attached_gap :
    ¬ ∀ (ops : List EngineOp) (r : Request),
      (∀ call ∈ (gapStart.run ops).calls, call.namesTokens = true) →
      r ∈ (gapStart.run ops).admitted →
        (∀ c ∈ gapStart.chunksOf ops r.id, c.Attached (rowsOf (gapStart.run ops).calls r.id)) ∧
          ∀ report ∈ (gapStart.run ops).reports, report.requestId = r.id →
            report.Attached (rowsOf (gapStart.run ops).calls r.id) := by
  intro h
  have hnames : ∀ call ∈ (gapStart.run gapOps).calls, call.namesTokens = true := by
    decide +kernel
  have hr : gapRequest ∈ (gapStart.run gapOps).admitted := by decide +kernel
  have hrows : rowsOf (gapStart.run gapOps).calls gapRequest.id = gapRows := by decide +kernel
  have hchunk : (⟨2, "E", some ⟨40, .finite (-1), []⟩⟩ : StreamedChunk) ∈
      gapStart.chunksOf gapOps gapRequest.id := by decide +kernel
  obtain ⟨k, row, hk, hrow, hentry⟩ := (h gapOps gapRequest hnames hr).1 _ hchunk _ rfl
  obtain rfl : 1 = k := Nat.succ_injective hk
  rw [hrows] at hrow
  obtain rfl : (⟨41, some none⟩ : OutputRow) = row := Option.some_inj.1 hrow
  cases hentry

end Session

end PagedServing
