import SourceBundle.Directive
import SourceBundle.Proofs.Text.Search

/-! # How a text is laid out

A text is a row of pieces with directives between them. Either the last piece ends the text, or a
directive follows that is never closed. Every text has exactly one such layout.
-/
namespace SourceBundle.Directive

variable {α : Type} {sp : Spelling α}

/-- Every opener in the piece follows the guard symbol, inside the piece. -/
def Plain (sp : Spelling α) (piece : List α) : Prop :=
  ∀ before after, piece = before ++ sp.opener ++ after → before.getLast? = some sp.guard

/-- A directive with the piece of text before it. -/
@[ext] structure Part (sp : Spelling α) where
  piece : List α
  body : List α
  plain : Plain sp piece
  unguarded : piece.getLast? ≠ some sp.guard
  inside : ¬sp.closer <:+: body

/-- A text whose directives are all closed. -/
@[ext] structure Layout (sp : Spelling α) where
  parts : List (Part sp)
  last : List α
  plain : Plain sp last

/-- A text whose last directive is not closed: what follows its opener is the rest of the text. -/
@[ext] structure Unclosed (sp : Spelling α) where
  parts : List (Part sp)
  rest : Part sp

def Part.opened (p : Part sp) : List α := p.piece ++ sp.opener ++ p.body

def joined (parts : List (Part sp)) : List α := parts.flatMap fun p => p.opened ++ sp.closer

def Layout.text (l : Layout sp) : List α := joined l.parts ++ l.last

def Unclosed.text (u : Unclosed sp) : List α := joined u.parts ++ u.rest.opened

/-- Openers and closers do not overlap, and the end of a closer does not guard an opener. -/
structure Spelling.Regular (sp : Spelling α) : Prop where
  opener : Text.Sharp sp.opener
  closer : Text.Sharp sp.closer
  free : sp.closer.getLast? ≠ some sp.guard

theorem regular_spelling : spelling.Regular where
  opener := ⟨'/', "*requires".toList, rfl, by decide⟩
  closer := ⟨'*', ['/'], rfl, by decide⟩
  free := by decide

variable {piece body tail tail' : List α} {p q : Part sp}

theorem joined_cons (p : Part sp) (parts : List (Part sp)) :
    joined (p :: parts) = p.opened ++ (sp.closer ++ joined parts) := by
  rw [joined, List.flatMap_cons, List.append_assoc, joined]

/-! ## No two layouts -/

/-- Up to its directive a piece has no opener that counts. -/
theorem Part.length_piece_le (hr : sp.Regular) (hb : piece.getLast? ≠ some sp.guard)
    (he : p.piece ++ sp.opener ++ tail = piece ++ sp.opener ++ tail') :
    p.piece.length ≤ piece.length := by
  by_contra hlt
  have hat := Text.occursAt_append sp.opener piece tail'
  rw [← he] at hat
  have hin := hr.opener.occursAt_left (Nat.lt_of_not_le hlt) hat
  obtain ⟨before, after, hp, hl⟩ := hin.exists_eq (Nat.le_of_not_le hlt)
  rw [hp] at he
  simp only [List.append_assoc] at he
  obtain rfl := List.append_inj_left he hl
  exact hb (p.plain before after hp)

theorem Part.piece_eq (hr : sp.Regular)
    (he : p.piece ++ sp.opener ++ tail = q.piece ++ sp.opener ++ tail') :
    p.piece = q.piece ∧ tail = tail' := by
  have hl := Nat.le_antisymm (length_piece_le hr q.unguarded he)
    (length_piece_le hr p.unguarded he.symm)
  obtain ⟨ho, ht⟩ := List.append_inj he (by simp [hl])
  exact ⟨List.append_inj_left ho hl, ht⟩

theorem Part.not_plain (p : Part sp) : ¬Plain sp (p.piece ++ sp.opener ++ tail) :=
  fun h => p.unguarded (h p.piece tail rfl)

variable [DecidableEq α]

theorem Part.opened_closer_inj (hr : sp.Regular)
    (he : p.opened ++ (sp.closer ++ tail) = q.opened ++ (sp.closer ++ tail')) :
    p = q ∧ tail = tail' := by
  simp only [opened, List.append_assoc] at he
  rw [← List.append_assoc, ← List.append_assoc q.piece] at he
  obtain ⟨hp, ht⟩ := piece_eq hr he
  rw [← List.append_assoc, ← List.append_assoc q.body] at ht
  have hl : Text.find? sp.closer (p.body ++ sp.closer ++ tail) = some p.body.length :=
    hr.closer.find?_append p.inside
  rw [ht, hr.closer.find?_append q.inside] at hl
  have hlen := (Option.some.inj hl).symm
  obtain ⟨hb, ht⟩ := List.append_inj ht (by simp [hlen])
  exact ⟨Part.ext hp (List.append_inj_left hb hlen), ht⟩

/-- What can stand behind the last closed directive. -/
def Ends (sp : Spelling α) (tail : List α) : Prop :=
  Plain sp tail ∨ ∃ p : Part sp, tail = p.opened

omit [DecidableEq α] in
theorem Ends.ne_closed (hr : sp.Regular) (h : Ends sp tail) :
    tail ≠ p.opened ++ (sp.closer ++ tail') := by
  rintro rfl
  rcases h with h | ⟨q, h⟩
  · rw [Part.opened, List.append_assoc] at h
    exact p.not_plain h
  · simp only [Part.opened, List.append_assoc] at h
    rw [← List.append_assoc, ← List.append_assoc q.piece] at h
    obtain ⟨-, hb⟩ := Part.piece_eq hr h
    exact q.inside ⟨p.body, tail', by rw [List.append_assoc, hb]⟩

theorem joined_append_inj (hr : sp.Regular) {parts parts' : List (Part sp)} (ht : Ends sp tail)
    (ht' : Ends sp tail') (he : joined parts ++ tail = joined parts' ++ tail') :
    parts = parts' ∧ tail = tail' := by
  induction parts generalizing parts' with
  | nil =>
    cases parts' with
    | nil => exact ⟨rfl, he⟩
    | cons q parts' =>
      rw [joined_cons, List.append_assoc, List.append_assoc] at he
      exact absurd he (ht.ne_closed hr)
  | cons p parts ih =>
    rw [joined_cons, List.append_assoc, List.append_assoc] at he
    cases parts' with
    | nil => exact absurd he.symm (ht'.ne_closed hr)
    | cons q parts' =>
      rw [joined_cons, List.append_assoc, List.append_assoc] at he
      obtain ⟨rfl, hrest⟩ := Part.opened_closer_inj hr he
      obtain ⟨rfl, htail⟩ := ih hrest
      exact ⟨rfl, htail⟩

theorem Layout.text_inj (hr : sp.Regular) {l m : Layout sp} (h : l.text = m.text) : l = m := by
  obtain ⟨hp, hl⟩ := joined_append_inj hr (Or.inl l.plain) (Or.inl m.plain) h
  exact Layout.ext hp hl

theorem Unclosed.text_inj (hr : sp.Regular) {u v : Unclosed sp} (h : u.text = v.text) : u = v := by
  obtain ⟨hp, hl⟩ := joined_append_inj hr (Or.inr ⟨u.rest, rfl⟩) (Or.inr ⟨v.rest, rfl⟩) h
  obtain ⟨hpiece, hbody⟩ := Part.piece_eq hr hl
  exact Unclosed.ext hp (Part.ext hpiece hbody)

/-! ## A layout of every text -/

omit [DecidableEq α] in
/-- The first opener that counts has a plain piece before it. -/
theorem exists_piece (h : ¬Plain sp tail) : ∃ piece rest, tail = piece ++ sp.opener ++ rest ∧
    Plain sp piece ∧ piece.getLast? ≠ some sp.guard := by
  simp only [Plain, not_forall] at h
  obtain ⟨piece, rest, ht, hg⟩ := h
  induction hn : piece.length using Nat.strong_induction_on generalizing piece rest with
  | _ n ih =>
    by_cases hp : Plain sp piece
    · exact ⟨piece, rest, ht, hp, hg⟩
    · simp only [Plain, not_forall] at hp
      obtain ⟨before, after, hpiece, hb⟩ := hp
      have hlt : before.length < n := by
        have hpos := List.length_pos_iff.mpr sp.opens
        rw [← hn, hpiece]
        simp only [List.length_append]
        omega
      refine ih before.length hlt before (after ++ sp.opener ++ rest) ?_ hb rfl
      rw [ht, hpiece]
      simp only [List.append_assoc]

theorem exists_joined (hr : sp.Regular) (text : List α) :
    ∃ (parts : List (Part sp)) (tail : List α), text = joined parts ++ tail ∧ Ends sp tail := by
  induction hn : text.length using Nat.strong_induction_on generalizing text with
  | _ n ih =>
    by_cases hplain : Plain sp text
    · exact ⟨[], text, rfl, Or.inl hplain⟩
    · obtain ⟨piece, rest, ht, hp, hg⟩ := exists_piece hplain
      by_cases hc : sp.closer <:+: rest
      · obtain ⟨body, after, hrest, hb⟩ := Text.exists_first hr.closer.ne_nil hc
        have hlt : after.length < n := by
          have hpos := List.length_pos_iff.mpr sp.opens
          rw [← hn, ht, hrest]
          simp only [List.length_append]
          omega
        obtain ⟨parts, tail, hj, he⟩ := ih after.length hlt after rfl
        refine ⟨⟨piece, body, hp, hg, hb⟩ :: parts, tail, ?_, he⟩
        rw [joined_cons, Part.opened, ht, hrest, hj]
        simp only [List.append_assoc]
      · exact ⟨[], text, rfl, Or.inr ⟨⟨piece, rest, hp, hg, hc⟩, ht⟩⟩

end SourceBundle.Directive
