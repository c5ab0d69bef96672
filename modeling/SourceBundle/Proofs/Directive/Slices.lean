import SourceBundle.Proofs.Directive.Octets
import SourceBundle.Proofs.Text.Boundary

/-! # Slices of a text

The scanner on the octets of a text cuts slices out of it, and each cut has to lie between two
characters. Here every slice is checked, and a scan with a wrong cut has no outcome. All positions
at which the scanner cuts lie at an end of the text, before an ASCII octet or behind one, so no
scan goes without an outcome.
-/
namespace SourceBundle.Directive

open Text.Utf8 (Octets isBoundary slice? encode decode)

/-- One look for an opener; it has no outcome where a slice would cut a character. -/
def step? (octets : Octets) (s : Scan UInt8) : Option (Step UInt8) := do
  let rest ← slice? octets s.search octets.length
  match Text.find? octetSpelling.opener rest with
  | none =>
    let last ← slice? octets s.copied octets.length
    return .finished (s.contents ++ last) s.bodies
  | some offset =>
    let start := s.search + offset
    let before ← slice? octets 0 start
    if before.getLast? = some octetSpelling.guard then
      return .next { s with search := start + 1 }
    else
      let body := start + octetSpelling.opener.length
      let tail ← slice? octets body octets.length
      match Text.find? octetSpelling.closer tail with
      | none => return .unclosed start
      | some length =>
        let piece ← slice? octets s.copied start
        let inside ← slice? octets body (body + length)
        let after := body + length + octetSpelling.closer.length
        return .next ⟨after, after, s.contents ++ piece, s.bodies ++ [inside]⟩

variable {octets : Octets} {text : List Char} {s t : Scan UInt8} {n : Nat}

/-- Slices that are legal are those of the scanner without checks. -/
theorem step?_eq_some {r : Step UInt8} (h : step? octets s = some r) :
    step octetSpelling octets s = r := by
  simp only [step?, Option.bind_eq_bind, Option.bind_eq_some_iff,
    Text.Utf8.slice?_eq_some_iff] at h
  obtain ⟨rest, ⟨-, rfl⟩, h⟩ := h
  rw [List.take_length] at h
  unfold step
  cases ho : Text.find? octetSpelling.opener (octets.drop s.search) with
  | none =>
    simp only [ho, Option.bind_eq_some_iff, Text.Utf8.slice?_eq_some_iff] at h ⊢
    obtain ⟨last, ⟨-, rfl⟩, h⟩ := h
    rw [List.take_length] at h
    exact Option.some.inj h
  | some offset =>
    simp only [ho, Option.bind_eq_some_iff, Text.Utf8.slice?_eq_some_iff] at h ⊢
    obtain ⟨before, ⟨-, rfl⟩, h⟩ := h
    rw [List.drop_zero] at h
    by_cases hg : (octets.take (s.search + offset)).getLast? = some octetSpelling.guard
    · rw [if_pos hg] at h ⊢
      exact Option.some.inj h
    · rw [if_neg hg] at h ⊢
      simp only [Option.bind_eq_some_iff, Text.Utf8.slice?_eq_some_iff] at h
      obtain ⟨tail, ⟨-, rfl⟩, h⟩ := h
      rw [List.take_length] at h
      cases hc : Text.find? octetSpelling.closer
          (octets.drop (s.search + offset + octetSpelling.opener.length)) with
      | none =>
        simp only [hc] at h ⊢
        exact Option.some.inj h
      | some length =>
        simp only [hc, Option.bind_eq_some_iff, Text.Utf8.slice?_eq_some_iff] at h ⊢
        obtain ⟨piece, ⟨-, rfl⟩, inside, ⟨-, rfl⟩, h⟩ := h
        exact Option.some.inj h

/-- The loop with every slice checked. -/
def run? (octets : Octets) (s : Scan UInt8) : Option (Outcome UInt8) :=
  match _h : step? octets s with
  | none => none
  | some (.finished contents bodies) => some (.ok (contents, bodies))
  | some (.unclosed position) => some (.error position)
  | some (.next t) => run? octets t
termination_by octets.length - s.search
decreasing_by
  have := step_next (step?_eq_some _h)
  omega

/-- The parser on octets, with every slice checked; the first line of an open directive is cut out
too. -/
def parse? (file : String) (octets : Octets) : Option (Except Error Parsed) := do
  match ← run? octets begin with
  | .ok (contents, bodies) =>
    return .ok ⟨decode contents, bodies.map fun b => String.ofList (Text.trim (decode b))⟩
  | .error position =>
    let rest ← slice? octets position octets.length
    return .error (.malformedDirective file
      (String.ofList ((firstLine? (decode rest)).getD spelling.opener)))

/-! ## Where the scanner cuts -/

/-- The scan goes on from one state to another. -/
def GoesOn (octets : Octets) (s t : Scan UInt8) : Prop := step octetSpelling octets s = .next t

/-- Octets may be cut here. -/
def Cuts (octets : Octets) (n : Nat) : Prop := n ≤ octets.length ∧ isBoundary octets n = true

/-- What holds of the two positions of the scanner before every look for an opener. -/
structure Placed (octets : Octets) (s : Scan UInt8) : Prop where
  order : s.copied ≤ s.search
  copied : Cuts octets s.copied
  search : Cuts octets s.search

/-- All the other positions at which it cuts: before and behind an opener, behind its first octet,
and before and behind a closer. -/
structure Found (octets : Octets) (s : Scan UInt8) (offset : Nat) : Prop where
  order : s.copied ≤ s.search + offset
  start : Cuts octets (s.search + offset)
  next : Cuts octets (s.search + offset + 1)
  body : Cuts octets (s.search + offset + octetSpelling.opener.length)
  closed : ∀ length, Text.find? octetSpelling.closer
      (octets.drop (s.search + offset + octetSpelling.opener.length)) = some length →
    Cuts octets (s.search + offset + octetSpelling.opener.length + length) ∧
      Cuts octets (s.search + offset + octetSpelling.opener.length + length +
        octetSpelling.closer.length)

theorem cuts_of_isBoundary (h : isBoundary octets n = true) : Cuts octets n :=
  ⟨Text.Utf8.le_length_of_isBoundary h, h⟩

theorem placed_begin (octets : Octets) : Placed octets begin :=
  ⟨Nat.le_refl _, cuts_of_isBoundary rfl, cuts_of_isBoundary rfl⟩

theorem Placed.found {offset : Nat} (h : Placed (encode text) s)
    (ho : Text.find? octetSpelling.opener ((encode text).drop s.search) = some offset) :
    Found (encode text) s offset := by
  have hat := (Text.occursAt_drop s.search).mp (Text.find?_eq_some_iff.mp ho).1
  obtain ⟨hstart, hnext, hbody⟩ :=
    Text.Utf8.isBoundary_of_occursAt ascii_opener spelling.opens hat
  refine ⟨h.order.trans (Nat.le_add_right _ _), cuts_of_isBoundary hstart,
    cuts_of_isBoundary hnext, cuts_of_isBoundary hbody, fun length hc => ?_⟩
  have hat' := (Text.occursAt_drop _).mp (Text.find?_eq_some_iff.mp hc).1
  obtain ⟨hinside, -, hafter⟩ :=
    Text.Utf8.isBoundary_of_occursAt ascii_closer regular_spelling.closer.ne_nil hat'
  exact ⟨cuts_of_isBoundary hinside, cuts_of_isBoundary hafter⟩

theorem Placed.goesOn (h : Placed (encode text) s) (ht : GoesOn (encode text) s t) :
    Placed (encode text) t := by
  unfold GoesOn step at ht
  cases ho : Text.find? octetSpelling.opener ((encode text).drop s.search) with
  | none =>
    simp only [ho] at ht
    cases ht
  | some offset =>
    have hfound := h.found ho
    simp only [ho] at ht
    split at ht
    · cases ht
      exact ⟨hfound.order.trans (Nat.le_succ _), h.copied, hfound.next⟩
    · split at ht
      · cases ht
      · rename_i length hc
        cases ht
        obtain ⟨-, hafter⟩ := hfound.closed length hc
        exact ⟨Nat.le_refl _, hafter, hafter⟩

theorem placed_of_goesOn (h : Relation.ReflTransGen (GoesOn (encode text)) begin s) :
    Placed (encode text) s := by
  induction h with
  | refl => exact placed_begin _
  | tail _ hs ih => exact ih.goesOn hs

/-- Going on cannot last: the octets to the right of the search get fewer. -/
theorem wellFounded_goesOn (octets : Octets) : WellFounded (fun t s => GoesOn octets s t) := by
  refine Subrelation.wf (fun {t s} ht => ?_)
    (measure fun s : Scan UInt8 => octets.length - s.search).wf
  have hnext := step_next ht
  change octets.length - t.search < octets.length - s.search
  omega

/-! ## No slice fails -/

theorem slice?_of_cuts {first last : Nat} (h : first ≤ last) (hf : Cuts octets first)
    (hl : Cuts octets last) : slice? octets first last = some (slice octets first last) :=
  Text.Utf8.slice?_eq_some_iff.mpr ⟨⟨h, hf.2, hl.2⟩, rfl⟩

theorem slice?_to_end (h : Cuts octets n) :
    slice? octets n octets.length = some (octets.drop n) := by
  rw [slice?_of_cuts h.1 h ⟨Nat.le_refl _, Text.Utf8.isBoundary_length octets⟩, slice,
    List.take_length]

theorem Placed.step?_eq (h : Placed (encode text) s) :
    step? (encode text) s = some (step octetSpelling (encode text) s) := by
  unfold step? step
  simp only [slice?_to_end h.search, slice?_to_end h.copied, Option.bind_eq_bind, Option.bind_some]
  cases ho : Text.find? octetSpelling.opener ((encode text).drop s.search) with
  | none => rfl
  | some offset =>
    have hfound := h.found ho
    have hbefore : slice? (encode text) 0 (s.search + offset) =
        some ((encode text).take (s.search + offset)) :=
      slice?_of_cuts (Nat.zero_le _) (cuts_of_isBoundary rfl) hfound.start
    simp only [hbefore, slice?_to_end hfound.body,
      slice?_of_cuts hfound.order h.copied hfound.start, Option.bind_some]
    by_cases hg : ((encode text).take (s.search + offset)).getLast? = some octetSpelling.guard
    · rw [if_pos hg, if_pos hg]
      rfl
    rw [if_neg hg, if_neg hg]
    cases hc : Text.find? octetSpelling.closer
        ((encode text).drop (s.search + offset + octetSpelling.opener.length)) with
    | none => rfl
    | some length =>
      simp only [slice?_of_cuts (Nat.le_add_right _ length) hfound.body (hfound.closed length hc).1,
        Option.bind_some]
      rfl

theorem run?_eq_match (octets : Octets) (s : Scan UInt8) : run? octets s = match step? octets s with
    | none => none
    | some (.finished contents bodies) => some (.ok (contents, bodies))
    | some (.unclosed position) => some (.error position)
    | some (.next t) => run? octets t := by
  rw [run?]
  split <;> rename_i h <;> rw [h]

theorem Placed.run?_eq (h : Placed (encode text) s) :
    run? (encode text) s = some (run octetSpelling (encode text) s) := by
  induction hd : (encode text).length - s.search using Nat.strong_induction_on generalizing s with
  | _ d ih =>
    rw [run?_eq_match, run_eq, h.step?_eq]
    cases hs : step octetSpelling (encode text) s with
    | finished contents bodies => rfl
    | unclosed position => rfl
    | next t =>
      have hlt := step_next hs
      exact ih _ (by omega) (h.goesOn hs) rfl

/-! ## The parser on octets -/

theorem decode_strip (m : Layout octetSpelling) (h : m.text = encode text) :
    decode (m.parts.flatMap Part.piece ++ m.last) = (m.decode .utf8).parsed.contents := by
  have htakes : Charset.utf8.Takes m.text := fun _ => ⟨text, h.symm⟩
  rw [← strip_text]
  exact (congrArg decode (encode_contents htakes)).symm.trans (Text.Utf8.decode_encode _)

/-- The parser reads a text off its octets. -/
theorem parse?_eq (file : String) (text : List Char) :
    parse? file (encode text) = some (parse file text) := by
  have hdecode : Charset.utf8.decode (encode text) = text := Text.Utf8.decode_encode text
  rw [parse?, (placed_begin _).run?_eq, Option.bind_eq_bind, Option.bind_some]
  have hscan : run octetSpelling (encode text) begin = scan octetSpelling (encode text) := rfl
  rw [hscan]
  obtain ⟨parts, tail, he, hplain | ⟨p, rfl⟩⟩ := exists_joined regular_octetSpelling (encode text)
  · have hm : (⟨parts, tail, hplain⟩ : Layout octetSpelling).text = encode text := he.symm
    have hparse := parse_layout file (Layout.decode .utf8 ⟨parts, tail, hplain⟩)
    rw [Layout.text_decode, hm, hdecode] at hparse
    rw [hparse, ← hm, scan_layout regular_octetSpelling]
    simp only [decode_strip _ hm]
    have hbodies : (parts.map Part.body).map (fun b => String.ofList (Text.trim (decode b))) =
        (Layout.decode .utf8 ⟨parts, tail, hplain⟩).parsed.requires := by
      simp only [Layout.parsed, Layout.decode, List.map_map]
      rfl
    rw [hbodies]
    rfl
  · have hu : (⟨parts, p⟩ : Unclosed octetSpelling).text = encode text := he.symm
    obtain ⟨line, hline, hparse⟩ := parse_unclosed file (Unclosed.decode .utf8 ⟨parts, p⟩)
    rw [Unclosed.text_decode, hu, hdecode] at hparse
    have hdrop : (encode text).drop (joined parts ++ p.piece).length =
        octetSpelling.opener ++ p.body := by
      rw [he, Part.opened, List.append_assoc p.piece, ← List.append_assoc, List.drop_left]
    have hrest : decode (octetSpelling.opener ++ p.body) =
        spelling.opener ++ Charset.utf8.decode p.body :=
      Charset.utf8.decode_word_append ascii_opener p.body
    have hat : Text.OccursAt octetSpelling.opener (encode text)
        (joined parts ++ p.piece).length := by
      rw [Text.OccursAt, hdrop]
      exact List.prefix_append _ _
    have hcuts := cuts_of_isBoundary
      (Text.Utf8.isBoundary_of_occursAt ascii_opener spelling.opens hat).1
    have hline' : firstLine? (decode ((encode text).drop (joined parts ++ p.piece).length)) =
        some line := by
      rw [hdrop, hrest]
      exact hline
    rw [hparse, ← hu, scan_unclosed regular_octetSpelling, hu]
    simp only [slice?_to_end hcuts, hline', Option.bind_eq_bind, Option.bind_some, Option.getD_some]
    rfl

/-- Every state of the loop keeps its two positions in order and between characters, and so is
every place at which it cuts. No slice fails, each round searches from further right, and thus the
loop ends and gives what the parser gives on the characters. -/
theorem cuts_between_characters (file : String) (text : List Char) :
    (∀ s, Relation.ReflTransGen (GoesOn (encode text)) begin s →
      Placed (encode text) s ∧
      (∀ offset, Text.find? octetSpelling.opener ((encode text).drop s.search) = some offset →
        Found (encode text) s offset) ∧
      step? (encode text) s = some (step octetSpelling (encode text) s) ∧
      ∀ t, GoesOn (encode text) s t → s.search < t.search) ∧
    WellFounded (fun t s => GoesOn (encode text) s t) ∧
    run? (encode text) begin = some (scan octetSpelling (encode text)) ∧
    parse? file (encode text) = some (parse file text) := by
  refine ⟨fun s hs => ?_, wellFounded_goesOn _, (placed_begin _).run?_eq, parse?_eq file text⟩
  have hplaced := placed_of_goesOn hs
  exact ⟨hplaced, fun _ => hplaced.found, hplaced.step?_eq, fun _ ht => (step_next ht).1⟩

/-- Characters of two, three and four octets stand on both sides of the directives here, and the
first opener follows a star. -/
def accents : List Char := "é*/*requires ü*/€/*requires 𝄞*/ñ".toList

/-- Three rounds: past the guarded opener, past the directive, and the rest. -/
theorem accents_cut :
    (∃ s, Relation.ReflTransGen (GoesOn (encode accents)) begin s ∧
      (s.copied, s.search) = (38, 38) ∧ Placed (encode accents) s ∧
      step? (encode accents) s =
        some (.finished (encode "é*/*requires ü*/€ñ".toList) [encode " 𝄞".toList])) ∧
    parse? "score.js" (encode accents) = some (.ok ⟨"é*/*requires ü*/€ñ".toList, ["𝄞"]⟩) := by
  have hfirst : GoesOn (encode accents) begin ⟨0, 4, [], []⟩ := by
    unfold GoesOn
    cbv
  have hsecond : GoesOn (encode accents) ⟨0, 4, [], []⟩
      ⟨38, 38, encode "é*/*requires ü*/€".toList, [encode " 𝄞".toList]⟩ := by
    unfold GoesOn
    cbv
  have hreached := (Relation.ReflTransGen.single hfirst).tail hsecond
  have hall := cuts_between_characters "score.js" accents
  refine ⟨⟨_, hreached, rfl, (hall.1 _ hreached).1, ?_⟩, ?_⟩
  · rw [(hall.1 _ hreached).2.2.1]
    cbv
  · rw [hall.2.2.2]
    cbv

end SourceBundle.Directive
