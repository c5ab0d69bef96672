import SourceBundle.Proofs.Directive.Scan

/-! # Exactly the closed texts are accepted

A text whose directives are all closed gives its pieces and bodies. Any other text is refused, with
the first line of the one directive that is not closed.
-/
namespace SourceBundle.Directive

variable {text : List Char}

/-- The pieces in a row, and the bodies without the white space around them. -/
def Layout.parsed (l : Layout spelling) : Parsed :=
  ⟨l.parts.flatMap Part.piece ++ l.last, l.parts.map fun p => String.ofList (Text.trim p.body)⟩

theorem firstLine?_eq_none_iff : firstLine? text = none ↔ text = [] := by
  by_cases h : text = []
  · simp [firstLine?, h]
  · unfold firstLine?
    simp only [if_neg h]
    split <;> simp [h]

theorem parse_layout (file : String) (l : Layout spelling) : parse file l.text = .ok l.parsed := by
  rw [parse, scan_layout regular_spelling]
  simp [Layout.parsed]

/-- There is a first line to report, since the text from the opener on is not empty. -/
theorem parse_unclosed (file : String) (u : Unclosed spelling) :
    ∃ line, firstLine? (spelling.opener ++ u.rest.body) = some line ∧
      parse file u.text = .error (.malformedDirective file (String.ofList line)) := by
  have hdrop : u.text.drop (joined u.parts ++ u.rest.piece).length =
      spelling.opener ++ u.rest.body := by
    rw [Unclosed.text, Part.opened, List.append_assoc, ← List.append_assoc, List.drop_left]
  cases hf : firstLine? (spelling.opener ++ u.rest.body) with
  | none =>
    have hnil := firstLine?_eq_none_iff.mp hf
    exact absurd (List.append_eq_nil_iff.mp hnil).1 spelling.opens
  | some line =>
    refine ⟨line, rfl, ?_⟩
    rw [parse, scan_unclosed regular_spelling]
    simp only [hdrop, hf, Option.getD_some]

theorem exists_layout_or_unclosed (text : List Char) :
    (∃ l : Layout spelling, l.text = text) ∨ ∃ u : Unclosed spelling, u.text = text := by
  obtain ⟨parts, tail, rfl, hplain | ⟨p, rfl⟩⟩ := exists_joined regular_spelling text
  · exact Or.inl ⟨⟨parts, tail, hplain⟩, rfl⟩
  · exact Or.inr ⟨⟨parts, p⟩, rfl⟩

/-- A text is accepted if and only if it can be laid out with every directive closed, which it can
in one way at most. If it cannot, one directive is not closed, and its first line is reported. -/
theorem parse_iff_layout (file : String) (text : List Char) :
    (∀ parsed, parse file text = .ok parsed ↔
      ∃ l : Layout spelling, l.text = text ∧ l.parsed = parsed) ∧
    (∀ l m : Layout spelling, l.text = text → m.text = text → l = m) ∧
    ((¬∃ l : Layout spelling, l.text = text) →
      ∃ u : Unclosed spelling, (∀ v : Unclosed spelling, v.text = text ↔ v = u) ∧
        ∃ line, firstLine? (spelling.opener ++ u.rest.body) = some line ∧
          parse file text = .error (.malformedDirective file (String.ofList line))) := by
  refine ⟨fun parsed => ⟨fun h => ?_, ?_⟩, ?_, ?_⟩
  · rcases exists_layout_or_unclosed text with ⟨l, rfl⟩ | ⟨u, rfl⟩
    · rw [parse_layout] at h
      exact ⟨l, rfl, Except.ok.inj h⟩
    · obtain ⟨line, -, he⟩ := parse_unclosed file u
      rw [he] at h
      cases h
  · rintro ⟨l, rfl, rfl⟩
    exact parse_layout file l
  · rintro l m rfl hm
    exact (Layout.text_inj regular_spelling hm).symm
  · intro hn
    rcases exists_layout_or_unclosed text with hl | ⟨u, rfl⟩
    · exact absurd hl hn
    · refine ⟨u, fun v => ⟨Unclosed.text_inj regular_spelling, ?_⟩, parse_unclosed file u⟩
      rintro rfl
      rfl

/-- One opener right after a star, one right after a closer, and one that is not closed. -/
def dangling : List Char := "**/*requires /*requires a*//*requires b */\n/*requires c\nd".toList

theorem dangling_refused :
    parse "f" dangling = .error (.malformedDirective "f" "/*requires c") ∧
      ¬∃ l : Layout spelling, l.text = dangling := by
  have hp : parse "f" dangling = .error (.malformedDirective "f" "/*requires c") := by cbv
  refine ⟨hp, ?_⟩
  rintro ⟨l, hl⟩
  have hok := ((parse_iff_layout "f" dangling).1 l.parsed).mpr ⟨l, hl, rfl⟩
  rw [hp] at hok
  cases hok

end SourceBundle.Directive
