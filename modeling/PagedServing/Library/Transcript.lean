import Mathlib

/-! # Transcripts

Entries with a head and a body, written one after the other with a separator before each. What
stands in a body may look like a further entry; a transcript is clean when no body does. Every
transcript reads as exactly one clean transcript.
-/

/-- How transcripts are written: what stands before an entry, which heads there are, and what
follows the last entry. -/
structure Transcript (α : Type) where
  separator : List α
  heads : List (List α)
  tail : List α

namespace Transcript

variable {α : Type}

def render (T : Transcript α) : List (List α × List α) → List α
  | [] => T.tail
  | entry :: rest => T.separator ++ (entry.1 ++ (entry.2 ++ render T rest))

theorem render_eq_flatMap (T : Transcript α) (entries : List (List α × List α)) :
    T.render entries = (entries.flatMap fun e => T.separator ++ (e.1 ++ e.2)) ++ T.tail := by
  induction entries with
  | nil => rfl
  | cons entry rest ih => simp only [render, ih, List.flatMap_cons, List.append_assoc]

/-- Joining writes a separator before each part but the first. -/
theorem append_intercalate (separator : List α) {parts : List (List α)} (hne : parts ≠ []) :
    separator ++ separator.intercalate parts = parts.flatMap (separator ++ ·) := by
  induction parts with
  | nil => exact absurd rfl hne
  | cons part rest ih =>
    cases rest with
    | nil => simp
    | cons next rest =>
        rw [List.intercalate_cons_cons, List.append_assoc, ih (List.cons_ne_nil _ _)]
        simp only [List.flatMap_cons, List.append_assoc]

/-- What ends each part may as well begin the next one. -/
theorem append_flatMap_append {ι : Type} (sep : List α) (f : ι → List α) (parts : List ι) :
    sep ++ parts.flatMap (fun part => f part ++ sep) =
      parts.flatMap (fun part => sep ++ f part) ++ sep := by
  induction parts with
  | nil => simp
  | cons part rest ih => simp only [List.flatMap_cons, List.append_assoc, ih]

variable (T : Transcript α)

/-- Heads and separators cannot overlap. -/
structure Lawful : Prop where
  ne_nil : T.separator ≠ []
  unbordered : ∀ front back : List α, front ≠ [] → back ≠ [] → T.separator = front ++ back →
    ¬ back <+: T.separator
  apart : ∀ head ∈ T.heads, ∀ a ∈ T.separator.head?, a ∉ head
  prefixFree : ∀ head ∈ T.heads, ∀ head' ∈ T.heads, head <+: head' → head = head'
  tail : T.tail = [] ∨ ∃ last, T.tail = T.separator ++ last ∧ ¬ T.separator <:+: last ∧
    ∀ head ∈ T.heads, ¬ head <+: last

/-- Every head is one of the heads. -/
def Headed (entries : List (List α × List α)) : Prop := ∀ entry ∈ entries, entry.1 ∈ T.heads

/-- A body in which no further entry begins. -/
def CleanBody (body : List α) : Prop := ∀ head ∈ T.heads, ¬ T.separator ++ head <:+: body

def Clean (entries : List (List α × List α)) : Prop := ∀ entry ∈ entries, T.CleanBody entry.2

variable {T} {entries entries' : List (List α × List α)} {body body' : List α}

/-! ## Reading -/

/-- What may follow a body. -/
inductive Follows (T : Transcript α) : List α → Prop
  | tail : Follows T T.tail
  | entry {head rest : List α} (h : head ∈ T.heads) : Follows T (T.separator ++ (head ++ rest))

theorem follows_render (h : T.Headed entries) : T.Follows (T.render entries) := by
  cases entries with
  | nil => exact .tail
  | cons entry rest => exact .entry (h entry List.mem_cons_self)

theorem Follows.separator (hT : T.Lawful) {text : List α} (h : T.Follows text) (hne : text ≠ []) :
    T.separator <+: text := by
  cases h with
  | tail =>
      rcases hT.tail with hnil | ⟨last, htail, -⟩
      · exact absurd hnil hne
      · exact htail ▸ List.prefix_append _ _
  | entry => exact List.prefix_append _ _

theorem Follows.tail_eq_nil (hT : T.Lawful) {text : List α} (h : T.Follows text)
    (hnil : text = []) : T.tail = [] := by
  cases h with
  | tail => exact hnil
  | entry => exact absurd (List.append_eq_nil_iff.1 hnil).1 hT.ne_nil

/-- A separator that begins in `more` lies in it. -/
theorem Follows.separator_prefix (hT : T.Lawful) {text' more follow : List α}
    (h' : T.Follows text') (hmore : more ≠ []) (h : T.separator ++ follow = more ++ text') :
    T.separator <+: more := by
  rcases List.append_eq_append_iff.1 h with ⟨more', rfl, -⟩ | ⟨back, hsep, hback⟩
  · exact List.prefix_append _ _
  · by_cases hnil : back = []
    · rw [hsep, hnil, List.append_nil]
    · have hne' : text' ≠ [] := hback ▸ List.append_ne_nil_of_left_ne_nil hnil _
      refine absurd ?_ (hT.unbordered more back hmore hnil hsep)
      refine List.prefix_of_prefix_length_le (hback ▸ List.prefix_append _ _)
        (h'.separator hT hne') ?_
      rw [hsep, List.length_append]
      exact Nat.le_add_left _ _

/-- A head that begins in `more` lies in it. -/
theorem Follows.head_prefix (hT : T.Lawful) {text' more head : List α} (h' : T.Follows text')
    (hhead : head ∈ T.heads) (h : head <+: more ++ text') : head <+: more := by
  obtain ⟨rest, hrest⟩ := h
  rcases List.append_eq_append_iff.1 hrest with ⟨more', rfl, -⟩ | ⟨cut, hcut, htext⟩
  · exact List.prefix_append _ _
  · by_cases hnil : cut = []
    · rw [hcut, hnil, List.append_nil]
    · have hne' : text' ≠ [] := htext ▸ List.append_ne_nil_of_left_ne_nil hnil _
      obtain ⟨follow, hfollow⟩ := h'.separator hT hne'
      obtain ⟨a, separator, hsep⟩ := List.exists_cons_of_ne_nil hT.ne_nil
      obtain ⟨b, cut', rfl⟩ := List.exists_cons_of_ne_nil hnil
      rw [← hfollow, hsep] at htext
      obtain rfl : a = b := (List.cons.inj htext).1
      refine absurd ?_ (hT.apart head hhead a (by simp [hsep]))
      rw [hcut]
      exact List.mem_append_right _ List.mem_cons_self

/-- A clean body ends where something else may begin. -/
theorem Follows.eq_nil (hT : T.Lawful) {text text' more : List α} (h : T.Follows text)
    (h' : T.Follows text') (heq : text = more ++ text') (hclean : T.CleanBody (body ++ more)) :
    more = [] := by
  by_contra hmore
  have hne : text ≠ [] := heq ▸ List.append_ne_nil_of_left_ne_nil hmore _
  obtain ⟨follow, hfollow⟩ := h.separator hT hne
  obtain ⟨more', rfl⟩ := h'.separator_prefix hT hmore (hfollow.trans heq)
  rw [List.append_assoc] at heq
  cases h with
  | @entry head rest hhead =>
      have hrest := List.append_cancel_left heq
      obtain ⟨after, hafter⟩ := h'.head_prefix hT hhead (hrest ▸ List.prefix_append _ _)
      refine hclean head hhead ⟨body, after, ?_⟩
      rw [← hafter]
      simp
  | tail =>
      rcases hT.tail with hnil | ⟨last, htail, hno, -⟩
      · exact hne hnil
      · have hlast : last = more' ++ text' := List.append_cancel_left (htail.symm.trans heq)
        have hne' : text' ≠ [] := fun hnil => hne (h'.tail_eq_nil hT hnil)
        obtain ⟨follow', hfollow'⟩ := h'.separator hT hne'
        exact hno ⟨more', follow', by rw [hlast, ← hfollow', List.append_assoc]⟩

/-- What is written cleanly reads in one way. -/
theorem body_inj (hT : T.Lawful) {text text' : List α} (h : T.Follows text) (h' : T.Follows text')
    (hclean : T.CleanBody body) (hclean' : T.CleanBody body')
    (heq : body ++ text = body' ++ text') :
    body = body' := by
  rcases List.append_eq_append_iff.1 heq with ⟨more, rfl, hmore⟩ | ⟨more, rfl, hmore⟩
  · rw [h.eq_nil hT h' hmore hclean', List.append_nil]
  · rw [h'.eq_nil hT h hmore hclean, List.append_nil]

theorem render_inj (hT : T.Lawful) (hheads : T.Headed entries) (hheads' : T.Headed entries')
    (hclean : T.Clean entries) (hclean' : T.Clean entries')
    (heq : T.render entries = T.render entries') : entries = entries' := by
  have htail : ∀ {entry : List α × List α} {rest : List (List α × List α)},
      entry.1 ∈ T.heads → T.tail ≠ T.render (entry :: rest) := by
    intro entry rest hhead htail
    rcases hT.tail with hnil | ⟨last, hlast, -, hno⟩
    · exact hT.ne_nil (List.append_eq_nil_iff.1 (htail.symm.trans hnil)).1
    · have hsame := List.append_cancel_left (hlast.symm.trans htail)
      exact hno entry.1 hhead (hsame ▸ List.prefix_append _ _)
  induction entries generalizing entries' with
  | nil =>
    cases entries' with
    | nil => rfl
    | cons entry rest => exact absurd heq (htail (hheads' entry List.mem_cons_self))
  | cons entry rest ih =>
    cases entries' with
    | nil => exact absurd heq.symm (htail (hheads entry List.mem_cons_self))
    | cons entry' rest' =>
      obtain ⟨hhead, hrest⟩ := List.forall_mem_cons.1 hheads
      obtain ⟨hhead', hrest'⟩ := List.forall_mem_cons.1 hheads'
      obtain ⟨hbody, hcleanRest⟩ := List.forall_mem_cons.1 hclean
      obtain ⟨hbody', hcleanRest'⟩ := List.forall_mem_cons.1 hclean'
      have hsame := List.append_cancel_left heq
      have hfirst : entry.1 = entry'.1 := by
        rcases List.prefix_or_prefix_of_prefix (List.prefix_append _ _)
          (hsame ▸ List.prefix_append entry'.1 _) with hprefix | hprefix
        · exact hT.prefixFree _ hhead _ hhead' hprefix
        · exact (hT.prefixFree _ hhead' _ hhead hprefix).symm
      rw [hfirst] at hsame
      replace hsame := List.append_cancel_left hsame
      have hsecond := body_inj hT (follows_render hrest) (follows_render hrest') hbody hbody' hsame
      rw [hsecond] at hsame
      rw [ih hrest hrest' hcleanRest hcleanRest' (List.append_cancel_left hsame),
        Prod.ext hfirst hsecond]

/-! ## Cleaning -/

theorem render_append_congr {rest rest' : List (List α × List α)}
    (h : T.render rest = T.render rest') (entries : List (List α × List α)) :
    T.render (entries ++ rest) = T.render (entries ++ rest') := by
  induction entries with
  | nil => exact h
  | cons entry entries ih => simp only [List.cons_append, render, ih]

/-- An entry in which another one begins is written like the two. -/
theorem render_split (head head' left right : List α) (rest : List (List α × List α)) :
    T.render ((head, left ++ (T.separator ++ head') ++ right) :: rest) =
      T.render ((head, left) :: (head', right) :: rest) := by
  simp only [render, List.append_assoc]

/-- Every entry can be written as clean entries: as itself, or as more than one. -/
theorem exists_clean_entry (hT : T.Lawful) {head : List α} (hhead : head ∈ T.heads)
    (body : List α) : ∃ entries, T.Headed entries ∧ T.Clean entries ∧
      (∀ rest, T.render (entries ++ rest) = T.render ((head, body) :: rest)) ∧
      (entries = [(head, body)] ∨ 1 < entries.length) := by
  induction hlen : body.length using Nat.strongRecOn generalizing head body with
  | _ n ih =>
    by_cases hclean : T.CleanBody body
    · exact ⟨[(head, body)], by simpa [Headed] using hhead, by simpa [Clean] using hclean,
        fun _ => rfl, .inl rfl⟩
    · simp only [CleanBody, not_forall, not_not] at hclean
      obtain ⟨head', hhead', left, right, rfl⟩ := hclean
      have hpos := List.length_pos_iff.2 hT.ne_nil
      simp only [List.length_append] at hlen
      obtain ⟨first, hheads, hfirst, hrender, hlong⟩ := ih left.length (by omega) hhead left rfl
      obtain ⟨second, hheads', hsecond, hrender', hlong'⟩ :=
        ih right.length (by omega) hhead' right rfl
      refine ⟨first ++ second, List.forall_mem_append.2 ⟨hheads, hheads'⟩,
        List.forall_mem_append.2 ⟨hfirst, hsecond⟩, fun rest => ?_, .inr ?_⟩
      · calc T.render (first ++ second ++ rest)
            = T.render (first ++ (second ++ rest)) := by rw [List.append_assoc]
          _ = T.render (first ++ (head', right) :: rest) :=
            render_append_congr (hrender' rest) first
          _ = T.render ((head, left) :: (head', right) :: rest) := hrender _
          _ = _ := (render_split head head' left right rest).symm
      · have hone : 0 < first.length := hlong.elim (fun h => h ▸ Nat.one_pos) Nat.lt_of_succ_lt
        have hone' : 0 < second.length :=
          hlong'.elim (fun h => h ▸ Nat.one_pos) Nat.lt_of_succ_lt
        rw [List.length_append]
        omega

theorem exists_clean (hT : T.Lawful) (hheads : T.Headed entries) :
    ∃ clean, T.Headed clean ∧ T.Clean clean ∧ T.render clean = T.render entries ∧
      (clean = entries ∨ entries.length < clean.length) := by
  induction entries with
  | nil => exact ⟨[], hheads, fun _ h => absurd h List.not_mem_nil, rfl, .inl rfl⟩
  | cons entry rest ih =>
    obtain ⟨hhead, hrest⟩ := List.forall_mem_cons.1 hheads
    obtain ⟨clean, hcleanHeads, hclean, hrender, hlong⟩ := ih hrest
    obtain ⟨first, hfirstHeads, hfirst, hfirstRender, hfirstLong⟩ :=
      exists_clean_entry hT hhead entry.2
    refine ⟨first ++ clean, List.forall_mem_append.2 ⟨hfirstHeads, hcleanHeads⟩,
      List.forall_mem_append.2 ⟨hfirst, hclean⟩, ?_, ?_⟩
    · rw [render_append_congr hrender first, hfirstRender]
    · rcases hfirstLong with rfl | hfirstLong
      · exact hlong.imp (congrArg _) Nat.succ_lt_succ
      · have hle : rest.length ≤ clean.length := hlong.elim (fun h => h ▸ le_rfl) le_of_lt
        refine .inr ?_
        rw [List.length_append, List.length_cons]
        omega

end Transcript
