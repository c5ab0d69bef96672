import SourceBundle.Proofs.Project.Blame

/-! # Hints

The hint is chosen by words in the message. These may come from what the text is rejected for, but
also from what the message quotes of the text; and where the path of a charset is not told, they may
be missing. Nothing is asked of the decoder but that its messages have their usual form.
-/
namespace SourceBundle.Project

open Yaml (Mark)

def validKeys : String := "Valid keys are: " ++ String.intercalate ", " fieldNames

def supportedCharsets : String := "Supported charsets: utf-8, iso-8859-1, us-ascii"

/-- The hint is about what the text is rejected for. -/
def Helps (b : Blame) (hint : Option String) : Prop :=
  (hint = some validKeys ↔ b = .unknownKey) ∧
    (hint = some supportedCharsets ↔ b = .value "charset")

variable {word : List Char} {b : Blame} {r : Rejection} {hint : Option String}

/-! ## The hint of a message -/

theorem contains_iff {text : List Char} : Text.contains word text = true ↔ word <:+: text := by
  rw [Text.contains, Option.isSome_iff_ne_none, ne_eq, Text.find?_eq_none_iff, not_not]

theorem hint?_eq_validKeys_iff {message : String} :
    hint? message = some validKeys ↔ "unknown field".toList <:+: message.toList := by
  rw [← contains_iff]
  unfold hint?
  split
  · rename_i hunknown
    exact iff_of_true rfl hunknown
  · rename_i hunknown
    refine iff_of_false ?_ hunknown
    split <;> decide

theorem hint?_eq_supportedCharsets_iff {message : String} :
    hint? message = some supportedCharsets ↔
      ¬"unknown field".toList <:+: message.toList ∧ "charset".toList <:+: message.toList := by
  rw [← contains_iff, ← contains_iff]
  unfold hint?
  split
  · rename_i hunknown
    exact iff_of_false (by decide) fun h => h.1 hunknown
  · rename_i hunknown
    split
    · rename_i hcharset
      exact iff_of_true rfl ⟨hunknown, hcharset⟩
    · rename_i hcharset
      exact iff_of_false (by decide) fun h => hcharset h.2

/-! ## The words of a message -/

namespace Rejection

/-- The message quotes a text with this word in it. A reason is taken as it is. -/
def Quotes (reason word : String) : Rejection → Prop
  | malformed => word.toList <:+: reason.toList
  | mismatch m _ _ => ∃ s ∈ m.quoted?, word.toList <:+: s.toList

/-- The message says itself that it is about the charset. -/
def NamesCharset : Rejection → Prop
  | malformed => False
  | mismatch m path _ => path = "charset" ∨ ∃ name, m = .unsupportedCharset name

end Rejection

theorem silent_within {path inner : String} (h : Within path inner)
    (hpath : Silent path.toList ∧ Silent (path.toList ++ ['['])) : Silent inner.toList := by
  rcases h with rfl | ⟨index, rfl⟩
  · exact hpath.1
  · have htext : (path ++ "[" ++ toString index ++ "]").toList =
        (path.toList ++ ['[']) ++ ((toString index).toList ++ [']']) := by
      simp only [String.toList_append, List.append_assoc]
      rfl
    rw [htext]
    exact silent_numbered hpath.2 (by decide)

/-- A path holds a word only where it is the name of the charset field. -/
theorem Placed.infix_iff {name path : String} (h : Placed name path) (hn : name ∈ fieldNames)
    (hw : word ∈ hintWords) :
    word <:+: path.toList ↔ word = "charset".toList ∧ name = "charset" ∧ path = "charset" := by
  have hsilent : Silent path.toList →
      (word <:+: path.toList ↔ word = "charset".toList ∧ name = "charset" ∧ path = "charset") :=
    fun hs => by
      refine iff_of_false (hs word hw) ?_
      rintro ⟨rfl, rfl, rfl⟩
      exact hs _ hw (List.infix_refl _)
  have hnames : ∀ name ∈ fieldNames, ∀ word ∈ hintWords, (word <:+: name.toList ↔
      word = "charset".toList ∧ name = "charset" ∧ name = "charset") := by decide +kernel
  rcases h with rfl | rfl | rfl | ⟨rfl, hitem | hitem⟩
  · exact hsilent (by decide)
  · exact hnames _ hn word hw
  · exact hsilent (by decide)
  · exact hsilent (silent_within hitem (by decide))
  · exact hsilent (silent_within hitem (by decide))

/-- Apart from a key that is not known, a message has the words that it quotes, and that of the
charset where it names it. -/
theorem Says.infix_iff (h : Says (b, r)) (hb : b ≠ .unknownKey) (reason : String) {word : String}
    (hw : word.toList ∈ hintWords) :
    word.toList <:+: (r.message reason).toList ↔
      r.Quotes reason word ∨ word = "charset" ∧ b = .value "charset" ∧ r.NamesCharset := by
  have hempty : ¬word.toList <:+: "".toList := by
    have hsilent : Silent "".toList := by decide
    exact hsilent _ hw
  cases h with
  | text => simp [Rejection.message, Rejection.Quotes]
  | whole h | key h =>
    rw [Rejection.infix_message hw, or_iff_right hempty, h.infix_text_iff hw]
    simp [Rejection.Quotes]
  | unknownKey => exact absurd rfl hb
  | repeatedKey hn =>
    rw [Rejection.infix_message hw, or_iff_right hempty, Mismatch.infix_duplicateField hw]
    simp [Rejection.Quotes, Mismatch.quoted?]
  | @value name path m mark hn hp h =>
    have hcharset : ¬∃ text, m = .unsupportedCharset text := by
      rintro ⟨text, rfl⟩
      cases h
    rw [Rejection.infix_message hw, hp.infix_iff hn hw, h.infix_text_iff hw, String.toList_inj]
    simp only [Rejection.Quotes, Rejection.NamesCharset, or_iff_left hcharset, Blame.value.injEq]
    exact or_comm
  | charset =>
    rw [Rejection.infix_message hw, or_iff_right hempty, Mismatch.infix_unsupportedCharset hw,
      String.toList_inj]
    simp [Rejection.Quotes, Mismatch.quoted?, Rejection.NamesCharset, or_comm]

theorem Says.infix_unknownKey (h : Says (.unknownKey, r)) (reason : String) :
    "unknown field".toList <:+: (r.message reason).toList := by
  cases h with
  | unknownKey =>
    rw [Rejection.infix_message (by decide)]
    exact Or.inr (Mismatch.infix_unknownField _ fieldNames)

/-! ## Which hint is given -/

/-- Which hint goes with a rejection, and when that is the right one. -/
structure Hinted (b : Blame) (r : Rejection) (reason : String) (hint : Option String) : Prop where
  keys : hint = some validKeys ↔ b = .unknownKey ∨ r.Quotes reason "unknown field"
  charsets : hint = some supportedCharsets ↔
    b ≠ .unknownKey ∧ ¬r.Quotes reason "unknown field" ∧
      (r.Quotes reason "charset" ∨ b = .value "charset" ∧ r.NamesCharset)
  helps : Helps b hint ↔ b = .unknownKey ∨ ¬r.Quotes reason "unknown field" ∧
    (b = .value "charset" ∧ (r.Quotes reason "charset" ∨ r.NamesCharset) ∨
      b ≠ .value "charset" ∧ ¬r.Quotes reason "charset")

theorem Says.hinted (h : Says (b, r)) (reason : String) :
    Hinted b r reason (hint? (r.message reason)) := by
  have hkeys : hint? (r.message reason) = some validKeys ↔
      b = .unknownKey ∨ r.Quotes reason "unknown field" := by
    rw [hint?_eq_validKeys_iff]
    by_cases hb : b = .unknownKey
    · subst hb
      exact iff_of_true (h.infix_unknownKey reason) (Or.inl rfl)
    · rw [h.infix_iff hb reason (by decide)]
      simp [hb]
  have hcharsets : hint? (r.message reason) = some supportedCharsets ↔
      b ≠ .unknownKey ∧ ¬r.Quotes reason "unknown field" ∧
        (r.Quotes reason "charset" ∨ b = .value "charset" ∧ r.NamesCharset) := by
    rw [hint?_eq_supportedCharsets_iff, ← hint?_eq_validKeys_iff, hkeys, not_or, and_assoc]
    refine and_congr_right fun hb => and_congr_right fun _ => ?_
    rw [h.infix_iff hb reason (by decide)]
    simp
  refine ⟨hkeys, hcharsets, ?_⟩
  rw [Helps, hkeys, hcharsets]
  by_cases hb : b = .unknownKey
  · subst hb
    simp
  · simp only [hb, false_or, ne_eq, not_false_eq_true, true_and, iff_false]
    by_cases hc : b = .value "charset"
    · simp only [hc, true_and, not_true, false_and, or_false, iff_true]
      exact and_iff_right_of_imp And.left
    · simp only [hc, false_and, or_false, not_false_eq_true, true_and, false_or, iff_false, not_and]
      exact and_congr_right fun hu => ⟨fun h => h hu, fun h _ => h⟩

/-! ## Decoders -/

/-- A decoder finds a text as `examine` says, and tells what is wrong in messages of the usual form;
the reason is its own where the text is no document. -/
structure Worded [Decoder] (examine : List Char → Except (Blame × Rejection) Project)
    (reason : List Char → String) : Prop where
  decode : ∀ text, Decoder.decode text =
    (examine text).mapError fun (_, r) => r.message (reason text)
  formed : ∀ text e, examine text = .error e → Says e

section

variable [Decoder] {examine : List Char → Except (Blame × Rejection) Project}
  {reason : List Char → String} {text : List Char} {p : Project}

theorem Worded.parse_ok (hd : Worded examine reason) (ht : Text.trim text ≠ [])
    (h : examine text = .ok p) : parse text = .ok p := by
  have hempty : (Text.trim text).isEmpty = false := by simpa using ht
  rw [parse, hempty, if_neg Bool.false_ne_true, hd.decode, h]
  rfl

theorem Worded.parse_error (hd : Worded examine reason) (ht : Text.trim text ≠ [])
    (h : examine text = .error (b, r)) : parse text =
      .error (.config (r.message (reason text)) (hint? (r.message (reason text)))) := by
  have hempty : (Text.trim text).isEmpty = false := by simpa using ht
  rw [parse, hempty, if_neg Bool.false_ne_true, hd.decode, h]
  rfl

/-- A blank text is the empty project. Any other is read, or it is rejected for something. The hint
is then chosen by the words which the message quotes, and only without them by what the text is
rejected for. -/
theorem hints_follow_message (hd : Worded examine reason) (text : List Char) :
    Text.trim text = [] ∧ parse text = .ok {} ∨ Text.trim text ≠ [] ∧
      ((∃ p, examine text = .ok p ∧ parse text = .ok p) ∨
        ∃ b r hint, examine text = .error (b, r) ∧
          parse text = .error (.config (r.message (reason text)) hint) ∧
          Hinted b r (reason text) hint) := by
  by_cases ht : Text.trim text = []
  · exact Or.inl ⟨ht, by rw [parse, ht]; rfl⟩
  · refine Or.inr ⟨ht, ?_⟩
    cases hread : examine text with
    | ok p => exact Or.inl ⟨p, rfl, hd.parse_ok ht hread⟩
    | error e =>
      obtain ⟨b, r⟩ := e
      have hformed : Says (b, r) := hd.formed text (b, r) hread
      exact Or.inr ⟨b, r, _, rfl, hd.parse_error ht hread, hformed.hinted (reason text)⟩

end

/-! ## The decoder of this library -/

theorem worded_examine : Worded examine fun _ => malformedText where
  decode text := by
    have hmap : ∀ step : Except (Blame × Rejection) Project,
        (step.mapError Prod.snd).mapError (·.message malformedText) =
          step.mapError fun (_, r) => r.message malformedText := fun step => by
      cases step <;> rfl
    rw [examine, ← hmap, ← ofDocument_eq_examineDocument]
    rfl
  formed := fails_examine

/-- A boolean that is given as the word for a charset. -/
def quotedCharset : Rejection :=
  .mismatch (.wrongType (.string "charset") "a boolean") "separator" ⟨0, 11⟩

theorem examine_separator :
    examine "separator: charset".toList = .error (.value "separator", quotedCharset) := by
  decide +kernel

/-- No charset is given, but the word is quoted and brings in the hint for one. -/
theorem separator_hinted : Worded examine (fun _ => malformedText) ∧
    examine "separator: charset".toList = .error (.value "separator", quotedCharset) ∧
    parse "separator: charset".toList =
      .error (.config (quotedCharset.message malformedText) (some supportedCharsets)) := by
  have hsome : Text.trim "separator: charset".toList ≠ [] := by decide
  have hquotes : quotedCharset.Quotes malformedText "charset" :=
    ⟨"charset", rfl, List.infix_refl _⟩
  have hunquoted : ¬quotedCharset.Quotes malformedText "unknown field" := by
    rintro ⟨s, hs, hword⟩
    obtain rfl : "charset" = s := Option.some.inj hs
    exact absurd hword (by decide)
  refine ⟨worded_examine, examine_separator, ?_⟩
  rcases hints_follow_message worded_examine "separator: charset".toList with
    ⟨hblank, -⟩ | ⟨-, ⟨p, hread, -⟩ | ⟨b, r, hint, hread, hparse, hhinted⟩⟩
  · exact absurd hblank hsome
  · rw [examine_separator] at hread
    cases hread
  · obtain ⟨rfl, rfl⟩ := Prod.mk.inj (Except.error.inj (hread.symm.trans examine_separator))
    rw [hparse, hhinted.charsets.mpr ⟨by decide, hunquoted, Or.inl hquotes⟩]

/-- The hint for a charset does not help where a boolean is wrong. -/
theorem value_steers_hint : ¬∀ text b r hint, examine text = .error (b, r) →
    parse text = .error (.config (r.message malformedText) hint) → Helps b hint := by
  have hsome : Text.trim "separator: charset".toList ≠ [] := by decide
  intro h
  have hhelps := h _ _ _ _ examine_separator (worded_examine.parse_error hsome examine_separator)
  rw [((fails_examine _ _ examine_separator).hinted _).helps] at hhelps
  rcases hhelps with hb | ⟨-, ⟨hb, -⟩ | ⟨-, hquotes⟩⟩
  · exact absurd hb (by decide)
  · exact absurd hb (by decide)
  · exact hquotes ⟨"charset", rfl, List.infix_refl _⟩

end SourceBundle.Project
