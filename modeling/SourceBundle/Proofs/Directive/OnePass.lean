import SourceBundle.Proofs.Directive.Parse

/-! # Reading in one pass

A text can be read character by character, without positions. All that is remembered is the
character before, whether it has been kept or not. A slash that does not follow a star is where a
directive may begin, and the characters behind it say whether one does. This reader finds what the
scanner finds and fails where the scanner fails.
-/
namespace SourceBundle.Directive

namespace OnePass

/-- What follows the word at the front of a text. -/
def ahead? : (word text : List Char) → Option (List Char)
  | [], text => some text
  | _ :: _, [] => none
  | c :: word, d :: text => if c = d then ahead? word text else none

/-- What stands before the first closer, and what follows it. -/
def close? : List Char → Option (List Char × List Char)
  | [] => none
  | c :: rest =>
    match ahead? "*/".toList (c :: rest) with
    | some after => some ([], after)
    | none => (close? rest).map fun (body, after) => (c :: body, after)

theorem ahead?_eq_some_iff {word text after : List Char} :
    ahead? word text = some after ↔ text = word ++ after := by
  induction word generalizing text with
  | nil => simp [ahead?]
  | cons c word ih =>
    cases text with
    | nil => simp [ahead?]
    | cons d text =>
      by_cases hc : c = d
      · simp [ahead?, hc, ih]
      · simp [ahead?, hc, Ne.symm hc]

theorem ahead?_eq_none {word text : List Char} (h : ¬word <+: text) : ahead? word text = none := by
  cases ha : ahead? word text with
  | none => rfl
  | some after => exact absurd ⟨after, (ahead?_eq_some_iff.mp ha).symm⟩ h

theorem length_of_close? {text body after : List Char} (h : close? text = some (body, after)) :
    after.length ≤ text.length := by
  induction text generalizing body with
  | nil => cases h
  | cons c rest ih =>
    simp only [close?] at h
    split at h
    · rename_i a ha
      cases h
      rw [ahead?_eq_some_iff.mp ha, List.length_append]
      omega
    · obtain ⟨⟨b, a⟩, hba, he⟩ := Option.map_eq_some_iff.mp h
      cases he
      have hle := ih hba
      rw [List.length_cons]
      omega

def keep (piece : List Char) (p : Parsed) : Parsed := { p with contents := piece ++ p.contents }

def record (body : List Char) (p : Parsed) : Parsed :=
  { p with requires := String.ofList (Text.trim body) :: p.requires }

/-- Reads a text that follows the character `previous`. -/
def read (previous : Option Char) : List Char → Option Parsed
  | [] => some ⟨[], []⟩
  | c :: rest =>
    if c = '/' ∧ previous ≠ some '*' then
      match _ha : ahead? "*requires".toList rest with
      | none => (read (some c) rest).map (keep [c])
      | some directive =>
        match _hc : close? directive with
        | none => none
        | some (body, after) => (read (some '/') after).map (record body)
    else (read (some c) rest).map (keep [c])
termination_by text => text.length
decreasing_by
  · simp
  · have hle := length_of_close? _hc
    rw [ahead?_eq_some_iff.mp _ha, List.length_cons, List.length_append]
    omega
  · simp

/-! ## Closers -/

variable {previous : Option Char} {c : Char} {text body piece front tail rest : List Char}

theorem close?_append (hb : ¬spelling.closer <:+: body) (after : List Char) :
    close? (body ++ spelling.closer ++ after) = some (body, after) := by
  induction body with
  | nil => rfl
  | cons c body ih =>
    have hahead : ahead? spelling.closer (c :: (body ++ spelling.closer ++ after)) = none := by
      apply ahead?_eq_none
      intro hp
      have hat : Text.OccursAt spelling.closer (c :: body) 0 :=
        regular_spelling.closer.occursAt_left (by simp) hp
      exact hb hat.isInfix
    have hrest := ih fun h => hb (List.infix_cons h)
    simp only [List.cons_append, close?]
    rw [show "*/".toList = spelling.closer from rfl, hahead, hrest]
    rfl

theorem close?_eq_none (h : ¬spelling.closer <:+: text) : close? text = none := by
  induction text with
  | nil => rfl
  | cons c rest ih =>
    have hahead : ahead? spelling.closer (c :: rest) = none := ahead?_eq_none fun hp => h hp.isInfix
    have hrest := ih fun hi => h (List.infix_cons hi)
    rw [close?, show "*/".toList = spelling.closer from rfl, hahead, hrest]
    rfl

/-! ## One step -/

theorem read_nil : read previous [] = some ⟨[], []⟩ := by
  rw [read]

/-- A character is kept unless a directive begins there. -/
theorem read_cons (h : previous ≠ some '*' → ¬spelling.opener <+: c :: rest) :
    read previous (c :: rest) = (read (some c) rest).map (keep [c]) := by
  rw [read]
  split
  · rename_i hc
    obtain ⟨rfl, hprevious⟩ := hc
    split
    · rfl
    · rename_i directive ha
      refine absurd ⟨directive, ?_⟩ (h hprevious)
      rw [ahead?_eq_some_iff.mp ha]
      rfl
  · rfl

theorem read_opener (h : previous ≠ some '*') (rest : List Char) :
    read previous (spelling.opener ++ rest) = (close? rest).bind fun found =>
      (read (some '/') found.2).map (record found.1) := by
  have hahead : ahead? "*requires".toList ("*requires".toList ++ rest) = some rest :=
    ahead?_eq_some_iff.mpr rfl
  change read previous ('/' :: ("*requires".toList ++ rest)) = _
  rw [read, if_pos ⟨rfl, h⟩]
  split
  · rename_i hn
    cases hahead.symm.trans hn
  · rename_i directive hs
    cases hahead.symm.trans hs
    split <;> rename_i hc <;> rw [hc] <;> rfl

/-! ## Along a layout -/

/-- A plain piece is kept, whatever follows, as long as no opener begins in the piece and ends
behind it. The induction is on what is left of the piece; `front` has been read. -/
theorem exists_read_piece (previous : Option Char) (front tail : List Char)
    (hp : Plain spelling (front ++ piece))
    (hprevious : previous = some '*' ↔ front.getLast? = some '*')
    (hin : ∀ n < piece.length, Text.OccursAt spelling.opener (piece ++ tail) n →
      Text.OccursAt spelling.opener piece n) :
    ∃ last, (last = some '*' ↔ (front ++ piece).getLast? = some '*') ∧
      read previous (piece ++ tail) = (read last tail).map (keep piece) := by
  induction piece generalizing front previous with
  | nil =>
    refine ⟨previous, by rwa [List.append_nil], ?_⟩
    exact (congrFun Option.map_id _).symm
  | cons c piece ih =>
    have hc : read previous (c :: (piece ++ tail)) =
        (read (some c) (piece ++ tail)).map (keep [c]) := by
      apply read_cons
      intro hstar hopens
      have hat : Text.OccursAt spelling.opener (c :: piece) 0 := hin 0 (by simp) hopens
      obtain ⟨after, ha⟩ := hat
      have hguard := hp front after (by rw [List.append_assoc, ha]; rfl)
      exact hstar (hprevious.mpr hguard)
    have hp' : Plain spelling (front ++ [c] ++ piece) := by rwa [List.append_assoc]
    obtain ⟨last, hlast, hread⟩ := ih (some c) _ hp' (by simp)
      fun n hn ho => hin (n + 1) (Nat.succ_lt_succ hn) ho
    refine ⟨last, by rwa [List.append_assoc] at hlast, ?_⟩
    rw [List.cons_append, hc, hread, Option.map_map]
    rfl

/-- The piece before a directive is kept, and the directive is looked at. -/
theorem read_part (h : previous ≠ some '*') (p : Part spelling) (rest : List Char) :
    read previous (p.piece ++ (spelling.opener ++ rest)) =
      ((close? rest).bind fun found => (read (some '/') found.2).map (record found.1)).map
        (keep p.piece) := by
  have hin : ∀ n < p.piece.length,
      Text.OccursAt spelling.opener (p.piece ++ (spelling.opener ++ rest)) n →
        Text.OccursAt spelling.opener p.piece n := by
    intro n hn ho
    rw [← List.append_assoc] at ho
    exact regular_spelling.opener.occursAt_left hn ho
  obtain ⟨last, hlast, hread⟩ := exists_read_piece previous [] _ p.plain (by simpa using h) hin
  rw [hread, read_opener fun hl => p.unguarded (hlast.mp hl)]

/-- What the closed directives and the pieces before them add to what follows. -/
def gather (parts : List (Part spelling)) (p : Parsed) : Parsed :=
  parts.foldr (fun part p => keep part.piece (record part.body p)) p

theorem exists_read_joined (previous : Option Char) (h : previous ≠ some '*')
    (parts : List (Part spelling)) (tail : List Char) : ∃ last, last ≠ some '*' ∧
      read previous (joined parts ++ tail) = (read last tail).map (gather parts) := by
  induction parts generalizing previous with
  | nil => exact ⟨previous, h, (congrFun Option.map_id _).symm⟩
  | cons p parts ih =>
    obtain ⟨last, hlast, hread⟩ := ih (some '/') (by decide)
    refine ⟨last, hlast, ?_⟩
    have htext : joined (p :: parts) ++ tail = p.piece ++ (spelling.opener ++
        (p.body ++ spelling.closer ++ (joined parts ++ tail))) := by
      simp only [joined_cons, Part.opened, List.append_assoc]
    rw [htext, read_part h, close?_append p.inside, Option.bind_some, hread, Option.map_map,
      Option.map_map]
    rfl

theorem gather_eq (parts : List (Part spelling)) (last : List Char) :
    gather parts ⟨last, []⟩ = ⟨parts.flatMap Part.piece ++ last,
      parts.map fun p => String.ofList (Text.trim p.body)⟩ := by
  induction parts with
  | nil => rfl
  | cons p parts ih =>
    rw [gather, List.foldr_cons, ← gather, ih]
    simp only [keep, record, List.flatMap_cons, List.map_cons, List.append_assoc]

theorem read_layout (l : Layout spelling) : read none l.text = some l.parsed := by
  obtain ⟨previous, hprevious, hread⟩ :=
    exists_read_joined none (by decide) l.parts l.last
  obtain ⟨last, -, hlast⟩ :=
    exists_read_piece previous [] [] l.plain (by simpa using hprevious) (by simp)
  rw [List.append_nil] at hlast
  rw [Layout.text, hread, hlast, read_nil, Option.map_some, Option.map_some, Layout.parsed,
    ← gather_eq]
  simp only [keep, List.append_nil]

theorem read_unclosed (u : Unclosed spelling) : read none u.text = none := by
  obtain ⟨previous, hprevious, hread⟩ :=
    exists_read_joined none (by decide) u.parts u.rest.opened
  rw [Unclosed.text, hread, Part.opened, List.append_assoc, read_part hprevious,
    close?_eq_none u.rest.inside]
  rfl

end OnePass

/-- The scanner of positions and the reader that looks back at one character agree on every text: on
its contents, on what it names and on whether it is accepted. -/
theorem parse_toOption (file : String) (text : List Char) :
    (parse file text).toOption = OnePass.read none text := by
  rcases exists_layout_or_unclosed text with ⟨l, rfl⟩ | ⟨u, rfl⟩
  · rw [parse_layout, OnePass.read_layout]
    rfl
  · obtain ⟨line, -, he⟩ := parse_unclosed file u
    rw [he, OnePass.read_unclosed]
    rfl

end SourceBundle.Directive
