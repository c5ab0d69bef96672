import SourceBundle.Project.Reading
import SourceBundle.Proofs.Text.Words

/-! # Words in messages

The two words by which a hint is chosen, and where they stand in a message. The parts that are the
same in every message of a kind do not hold them, nor do numbers; so it comes down to the path and
to what is quoted.
-/
namespace SourceBundle

/-- The words that a hint is chosen by. -/
def Project.hintWords : List (List Char) := ["unknown field".toList, "charset".toList]

open Project (hintWords)
open Text (Bare)

variable {word before after text : List Char}

theorem Project.bare_of_mem (hw : word ∈ hintWords) : Bare word := by
  have hvisible : ∀ word ∈ hintWords, word.all (fun c =>
      (0x20 ≤ c.toNat ∧ c.toNat ≤ 0x7E) ∧ c ≠ '"' ∧ c ≠ '\\') := by decide
  have hmarks : ∀ word ∈ hintWords, '\\' ∉ word ∧ '\x7b' ∉ word ∧ '\x7d' ∉ word := by decide
  have hhead : ∀ word ∈ hintWords,
      ['0', 't', 'r', 'n', '\\', '"'].all (fun c => word.head? ≠ some c) := by decide
  have hletter : ∀ word ∈ hintWords,
      word.any (fun c => c ≠ 'u' ∧ c ∉ "0123456789abcdef".toList) := by decide
  have hne : ∀ word ∈ hintWords, word ≠ [] := by decide
  obtain ⟨hbackslash, hbraces⟩ := hmarks word hw
  refine ⟨fun c hc => ?_, hbackslash, hbraces, fun c hc => ?_, ?_, hne word hw⟩
  · obtain ⟨hc, hquote, hback⟩ := of_decide_eq_true (List.all_eq_true.mp (hvisible word hw) c hc)
    exact Text.quoteChar_of_visible hc hquote hback
  · exact of_decide_eq_true (List.all_eq_true.mp (hhead word hw) c hc)
  · obtain ⟨c, hc, hother⟩ := List.any_eq_true.mp (hletter word hw)
    exact ⟨c, hc, of_decide_eq_true hother⟩

/-! ## Texts without these words -/

/-- A text that holds neither word. -/
def Silent (text : List Char) : Prop := ∀ word ∈ hintWords, ¬word <:+: text

instance (text : List Char) : Decidable (Silent text) :=
  inferInstanceAs (Decidable (∀ word ∈ hintWords, ¬word <:+: text))

/-- A symbol that numbers are written with. -/
def IsNumeral (c : Char) : Prop := c.isDigit = true ∨ c = '-' ∨ c = '.'

instance (c : Char) : Decidable (IsNumeral c) :=
  inferInstanceAs (Decidable (c.isDigit = true ∨ c = '-' ∨ c = '.'))

def Numeral (text : List Char) : Prop := ∀ c ∈ text, IsNumeral c

instance (text : List Char) : Decidable (Numeral text) := List.decidableBAll IsNumeral text

theorem Numeral.silent (h : Numeral text) : Silent text := by
  intro word hw
  have hletter : ∀ word ∈ hintWords, word.any (fun c => ¬IsNumeral c) := by decide
  obtain ⟨c, hc, hother⟩ := List.any_eq_true.mp (hletter word hw)
  exact Text.not_infix_of_not_mem hc fun hm => of_decide_eq_true hother (h c hm)

theorem Numeral.append (hb : Numeral before) (ha : Numeral after) : Numeral (before ++ after) :=
  List.forall_mem_append.mpr ⟨hb, ha⟩

theorem numeral_toDigits (n : Nat) : Numeral (Nat.toDigits 10 n) :=
  fun _ hc => Or.inl (Nat.isDigit_of_mem_toDigits (by decide) (by decide) hc)

theorem numeral_toString (n : Int) : Numeral (toString n).toList := by
  cases n with
  | ofNat n =>
    have htext : (toString (Int.ofNat n)).toList = Nat.toDigits 10 n := Nat.toList_repr
    rw [htext]
    exact numeral_toDigits n
  | negSucc n =>
    have htext : (toString (Int.negSucc n)).toList = '-' :: Nat.toDigits 10 (n + 1) := by
      have hrepr : toString (Int.negSucc n) = "-" ++ (n + 1).repr := rfl
      rw [hrepr, String.toList_append, Nat.toList_repr]
      rfl
    rw [htext]
    exact List.forall_mem_cons.mpr ⟨by decide, numeral_toDigits (n + 1)⟩

theorem Decimal.numeral_write (d : Scaled) : Numeral (write plainLayout d).toList := by
  have hzeros : ∀ n, Numeral (zeros n) := fun n c hc => by
    rw [List.eq_of_mem_replicate hc]
    decide
  have hdigits := numeral_toDigits d.digits
  have hplain : ∀ point : Int, (plainLayout.above.all (· < point) &&
      plainLayout.upTo.all (point ≤ ·)) = true := fun _ => rfl
  unfold write
  simp only [hplain, if_true, String.toList_ofList]
  split
  · exact List.forall_mem_cons.mpr ⟨by decide, List.forall_mem_cons.mpr
      ⟨by decide, (hzeros _).append hdigits⟩⟩
  · split
    · exact (hdigits.append (hzeros _)).append (by decide)
    · refine Numeral.append (fun c hc => hdigits c (List.mem_of_mem_take hc)) ?_
      exact List.forall_mem_cons.mpr ⟨by decide, fun c hc => hdigits c (List.mem_of_mem_drop hc)⟩

theorem Decimal.numeral_text (negative : Bool) (b : Binary) :
    Numeral (Decimal.text plainLayout negative b).toList := by
  unfold Decimal.text
  rw [String.toList_append]
  refine Numeral.append ?_ ?_
  · cases negative <;> decide
  · split
    · decide
    · exact numeral_write _

/-- A number sets apart what stands around it. -/
theorem silent_numbered {n : Nat} (hb : Silent before) (ha : Silent after) :
    Silent (before ++ ((toString n).toList ++ after)) := by
  have htext : (toString n).toList = Nat.toDigits 10 n := Nat.toList_repr
  intro word hw
  have hletters : ∀ word ∈ hintWords, word.all (fun c => ¬IsNumeral c) := by decide
  have hnumber : ∀ c ∈ Nat.toDigits 10 n, c ∉ word := fun c hc hm =>
    of_decide_eq_true (List.all_eq_true.mp (hletters word hw) c hm) (numeral_toDigits n c hc)
  rw [htext, Text.infix_append_append_iff hnumber Nat.toDigits_ne_nil]
  exact not_or.mpr ⟨hb word hw, ha word hw⟩

/-- Marks set a text apart from what stands around it. -/
theorem infix_marked_iff (hw : word ∈ hintWords) (hb : Silent before) (ha : Silent after) :
    word <:+: before ++ '`' :: (text ++ '`' :: after) ↔ word <:+: text := by
  have hmark : ∀ word ∈ hintWords, '`' ∉ word := by decide
  rw [Text.infix_append_cons_iff (hmark word hw), Text.infix_append_cons_iff (hmark word hw),
    or_iff_right (hb word hw), or_iff_left (ha word hw)]

theorem silent_marked (hb : Silent before) (ht : Silent text) (ha : Silent after) :
    Silent (before ++ '`' :: (text ++ '`' :: after)) :=
  fun word hw h => ht word hw ((infix_marked_iff hw hb ha).mp h)

/-! ## What is found -/

namespace Found

/-- The text that is quoted where something was found. -/
def quoted? : Found → Option String
  | string text => some text
  | _ => none

/-- The ways in which a message shows what was found. Only a string is quoted as it stands in the
text; numbers are written by their digits. -/
inductive Shown : Found → Prop
  | boolean (value : Bool) : Shown (.boolean value)
  | integer {digits : String} (h : Numeral digits.toList) : Shown (.integer digits)
  | wideInteger {digits width : String} (h : Numeral digits.toList)
    (hwidth : width = "i128" ∨ width = "u128") : Shown (.wideInteger digits width)
  | float {number : String} (h : Numeral number.toList) : Shown (.float number)
  | special {number : String} (h : number ∈ ["inf", "-inf", "NaN"]) : Shown (.float number)
  | string (text : String) : Shown (.string text)
  | nothing : Shown (.nothing "unit value")
  | sequence : Shown .sequence
  | map : Shown .map

theorem text_integer (digits : String) : (integer digits).text.toList =
    "integer ".toList ++ '`' :: (digits.toList ++ '`' :: []) := by
  change ("integer `" ++ digits ++ "`").toList = _
  simp only [String.toList_append, List.append_assoc]
  rfl

theorem text_wideInteger (digits width : String) : (wideInteger digits width).text.toList =
    "integer ".toList ++ '`' :: (digits.toList ++ '`' :: (" as " ++ width).toList) := by
  change ("integer `" ++ digits ++ "` as " ++ width).toList = _
  simp only [String.toList_append, List.append_assoc]
  rfl

theorem text_float (number : String) : (float number).text.toList =
    "floating point ".toList ++ '`' :: (number.toList ++ '`' :: []) := by
  change ("floating point `" ++ number ++ "`").toList = _
  simp only [String.toList_append, List.append_assoc]
  rfl

theorem infix_string_iff (hw : word ∈ hintWords) (s : String) :
    word <:+: (string s).text.toList ↔ word <:+: s.toList := by
  have hstart : ∀ word ∈ hintWords, ¬word <:+: "string ".toList := by decide
  have hmark : ∀ word ∈ hintWords, '"' ∉ word := by decide
  have htext : (string s).text.toList = "string ".toList ++ Text.quote s.toList := by
    change ("string " ++ String.ofList (Text.quote s.toList)).toList = _
    simp only [String.toList_append, String.toList_ofList]
  have hquote : word <:+: "string ".toList ++ Text.quote s.toList ↔
      word <:+: Text.quote s.toList := by
    rw [Text.quote, List.cons_append, Text.infix_append_cons_iff (hmark word hw),
      Text.infix_cons_iff_of_not_mem (hmark word hw)]
    exact or_iff_right (hstart word hw)
  rw [htext, hquote, (Project.bare_of_mem hw).infix_quote_iff]

/-- What is not quoted has neither word. -/
theorem Shown.silent {found : Found} (h : found.Shown) (hq : found.quoted? = none) :
    Silent found.text.toList := by
  cases h with
  | boolean value => cases value <;> decide
  | integer h =>
    rw [text_integer]
    exact silent_marked (by decide) h.silent (by decide)
  | wideInteger h hwidth =>
    rw [text_wideInteger]
    refine silent_marked (by decide) h.silent ?_
    rcases hwidth with rfl | rfl <;> decide
  | float h =>
    rw [text_float]
    exact silent_marked (by decide) h.silent (by decide)
  | special h =>
    have hspecial : ∀ number ∈ ["inf", "-inf", "NaN"], Silent number.toList := by decide
    rw [text_float]
    exact silent_marked (by decide) (hspecial _ h) (by decide)
  | string text => cases hq
  | nothing => decide
  | sequence => decide
  | map => decide

/-- A word stands in what is found if and only if it stands in what is quoted of it. -/
theorem Shown.infix_iff {found : Found} (h : found.Shown) (hw : word ∈ hintWords) :
    word <:+: found.text.toList ↔ ∃ s ∈ found.quoted?, word <:+: s.toList := by
  cases hq : found.quoted? with
  | none => exact iff_of_false (h.silent hq word hw) (by simp)
  | some s =>
    have hfound : found = .string s := by
      cases found <;> cases hq
      rfl
    rw [hfound, infix_string_iff hw]
    simp

end Found

namespace Yaml.Scalar

variable {found : Found}

theorem shown_of_integerText? {s : List Char} (h : integerText? s = some found) : found.Shown := by
  obtain ⟨n, -, hn⟩ := Option.bind_eq_some_iff.mp h
  unfold integerFound? at hn
  split at hn
  · cases hn
    exact .integer (numeral_toString n)
  · split at hn
    · cases hn
      exact .wideInteger (numeral_toString n) (Or.inr rfl)
    · split at hn
      · cases hn
        exact .wideInteger (numeral_toString n) (Or.inl rfl)
      · cases hn

theorem shown_of_float? {s : List Char} {number : String} (h : float? s = some number) :
    (Found.float number).Shown := by
  unfold float? at h
  extract_lets plain finite at h
  have hfinite : ∀ negative digits,
      finite negative digits = some number → (Found.float number).Shown := by
    intro negative digits hn
    simp only [finite, Option.bind_eq_bind, Option.pure_def, Option.bind_eq_some_iff,
      Option.some.injEq] at hn
    obtain ⟨_, -, b, -, rfl⟩ := hn
    exact .float (Decimal.numeral_text negative b)
  split at h
  · cases h
    exact .special (by decide)
  · split at h
    · cases h
      exact .special (by decide)
    · split at h
      · cases h
        exact .special (by decide)
      · split at h
        · exact hfinite _ _ h
        · exact hfinite _ _ h

theorem shown_plainFound (s : List Char) : (plainFound s).Shown := by
  unfold plainFound
  split
  · exact .nothing
  · split
    · exact .boolean _
    · split
      · rename_i hi
        exact shown_of_integerText? hi
      · split
        · rename_i number hn
          split at hn
          · cases hn
          · exact shown_of_float? hn
        · exact .string _

end Yaml.Scalar

/-! ## Mismatches -/

/-- What may be expected where something else is found. -/
def Project.expectations : List String :=
  ["struct ProjectConfig", "field identifier", "a string", "path string", "a boolean",
    "a sequence", "null", "an integer", "a float"]

namespace Mismatch

/-- The text that is quoted in a mismatch. -/
def quoted? : Mismatch → Option String
  | wrongType found _ | wrongValue found _ => found.quoted?
  | unknownField name _ | duplicateField name | unsupportedCharset name => some name
  | tooLong _ => none

/-- One thing is found and another expected. -/
inductive Plain : Mismatch → Prop
  | type {found : Found} {expected : String} (hf : found.Shown)
    (he : expected ∈ Project.expectations) : Plain (.wrongType found expected)
  | value {found : Found} {expected : String} (hf : found.Shown)
    (he : expected ∈ Project.expectations) : Plain (.wrongValue found expected)

variable {m : Mismatch}

theorem infix_labelled (hw : word ∈ hintWords) :
    word <:+: before ++ ':' :: ' ' :: after ↔ word <:+: before ∨ word <:+: after := by
  have hcolon : ∀ word ∈ hintWords, ':' ∉ word := by decide
  have hspace : ∀ word ∈ hintWords, word.head? ≠ some ' ' := by decide
  rw [Text.infix_append_cons_iff (hcolon word hw),
    Text.infix_cons_iff_of_ne (hspace word hw) (Project.bare_of_mem hw).ne_nil]

/-- Behind a label stands what is found, and behind a comma what is expected. -/
theorem infix_found {found : Found} {expected label : String} {kind : List Char}
    (hw : word ∈ hintWords) (hl : label.toList = kind ++ [':', ' ']) (hk : Silent kind)
    (hf : found.Shown) (he : expected ∈ Project.expectations) :
    word <:+: (label ++ found.text ++ ", expected " ++ expected).toList ↔
      ∃ s ∈ found.quoted?, word <:+: s.toList := by
  have hcomma : ∀ word ∈ hintWords, ',' ∉ word := by decide
  have hexpected : ∀ expected ∈ Project.expectations,
      Silent (" expected ".toList ++ expected.toList) := by decide +kernel
  have htext : (label ++ found.text ++ ", expected " ++ expected).toList = kind ++
      ':' :: ' ' :: (found.text.toList ++ ',' :: (" expected ".toList ++ expected.toList)) := by
    simp only [String.toList_append, List.append_assoc, hl]
    rfl
  rw [htext, infix_labelled hw, or_iff_right (hk word hw),
    Text.infix_append_cons_iff (hcomma word hw),
    or_iff_left (hexpected expected he word hw), hf.infix_iff hw]

theorem Plain.infix_text_iff (h : m.Plain) (hw : word ∈ hintWords) :
    word <:+: m.text.toList ↔ ∃ s ∈ m.quoted?, word <:+: s.toList := by
  have htype : Silent "invalid type".toList := by decide
  have hvalue : Silent "invalid value".toList := by decide
  cases h with
  | type hf he => exact infix_found hw (by decide +kernel) htype hf he
  | value hf he => exact infix_found hw (by decide +kernel) hvalue hf he

theorem infix_duplicateField (hw : word ∈ hintWords) {name : String} :
    word <:+: (duplicateField name).text.toList ↔ word <:+: name.toList := by
  have hstart : Silent "duplicate field ".toList := by decide
  have htext : (duplicateField name).text.toList =
      "duplicate field ".toList ++ '`' :: (name.toList ++ '`' :: []) := by
    change ("duplicate field `" ++ name ++ "`").toList = _
    simp only [String.toList_append, List.append_assoc]
    rfl
  rw [htext, infix_marked_iff hw hstart (by decide)]

/-- This message has one of the words itself. -/
theorem infix_unsupportedCharset (hw : word ∈ hintWords) {name : String} :
    word <:+: (unsupportedCharset name).text.toList ↔
      word = "charset".toList ∨ word <:+: name.toList := by
  have hlabel : ∀ word ∈ hintWords,
      (word <:+: "Unsupported charset".toList ↔ word = "charset".toList) := by decide
  have htext : (unsupportedCharset name).text.toList =
      "Unsupported charset".toList ++ ':' :: ' ' :: name.toList := by
    change ("Unsupported charset: " ++ name).toList = _
    rw [String.toList_append]
    rfl
  rw [htext, infix_labelled hw, hlabel word hw]

/-- And this one the other. -/
theorem infix_unknownField (name : String) (known : List String) :
    "unknown field".toList <:+: (unknownField name known).text.toList := by
  have htext : (unknownField name known).text.toList =
      "unknown field".toList ++ (" `" ++ name ++ "`, expected one of " ++
        String.intercalate ", " (known.map fun k => "`" ++ k ++ "`")).toList := by
    change ("unknown field `" ++ name ++ "`, expected one of " ++
      String.intercalate ", " (known.map fun k => "`" ++ k ++ "`")).toList = _
    simp only [String.toList_append, List.append_assoc]
    rfl
  rw [htext]
  exact (List.prefix_append _ _).isInfix

end Mismatch

open Project (expectations) in
theorem Yaml.Scalar.plain_mismatch (s : Scalar) {expected : String} (he : expected ∈ expectations) :
    (s.mismatch expected).Plain := by
  have hstring := Found.Shown.string (String.ofList s.value)
  unfold mismatch
  extract_lets string asked
  have hasked : ∀ (found : Option Found) (name : String), (∀ f, found = some f → f.Shown) →
      name ∈ expectations → (asked found name).Plain := by
    intro found name hf hn
    cases found with
    | some found => exact .type (hf found rfl) he
    | none => exact .value hstring hn
  split
  · refine .type ?_ he
    split
    · exact shown_plainFound s.value
    · exact hstring
  · split
    · refine hasked _ _ (fun f hf => ?_) (by decide)
      obtain ⟨value, -, rfl⟩ := Option.map_eq_some_iff.mp hf
      exact .boolean value
    · split
      · exact hasked _ _ (fun f hf => shown_of_integerText? hf) (by decide)
      · split
        · refine hasked _ _ (fun f hf => ?_) (by decide)
          obtain ⟨number, hn, rfl⟩ := Option.map_eq_some_iff.mp hf
          exact shown_of_float? hn
        · split
          · refine hasked _ _ (fun f hf => ?_) (by decide)
            split at hf
            · cases hf
              exact .nothing
            · cases hf
          · split
            · exact .type (shown_plainFound s.value) he
            · exact .type hstring he

/-! ## Messages -/

namespace Project.Rejection

open Yaml (Mark)

/-- One word has no space; the other has no `a`, and no space at its end. So neither begins in a
text and ends in the place behind it. -/
theorem infix_append_at_iff (hw : word ∈ hintWords) (ha : Silent ('a' :: after)) :
    word <:+: text ++ ' ' :: 'a' :: after ↔ word <:+: text := by
  have hpart : ∀ word ∈ hintWords, ' ' ∉ word ∨ 'a' ∉ word ∧ word.getLast? ≠ some ' ' := by decide
  rcases hpart word hw with hspace | ⟨hletter, hlast⟩
  · rw [Text.infix_append_cons_iff hspace, or_iff_left (ha word hw)]
  · have hsplit : text ++ ' ' :: 'a' :: after = (text ++ [' ']) ++ 'a' :: after := by
      rw [List.append_assoc]
      rfl
    have hafter : ¬word <:+: after := fun h => ha word hw (h.trans (List.suffix_cons ..).isInfix)
    rw [hsplit, Text.infix_append_cons_iff hletter, or_iff_left hafter,
      Text.infix_concat_iff_of_ne hlast (Project.bare_of_mem hw).ne_nil]

/-- The place at the end of a message changes nothing. -/
theorem infix_place (hw : word ∈ hintWords) (m : Mark) :
    word <:+: text ++ (place m).toList ↔ word <:+: text := by
  unfold place
  split
  · rw [String.toList_empty, List.append_nil]
  · have hplace : (" at line " ++ toString (m.line + 1) ++ " column " ++
        toString (m.column + 1)).toList = ' ' :: 'a' :: ("t line ".toList ++
          ((toString (m.line + 1)).toList ++ (" column ".toList ++
            ((toString (m.column + 1)).toList ++ [])))) := by
      simp only [String.toList_append, List.append_assoc, List.append_nil]
      rfl
    rw [hplace]
    have hline : Silent "at line ".toList := by decide
    have hcolumn : Silent " column ".toList := by decide
    exact infix_append_at_iff hw (silent_numbered hline (silent_numbered hcolumn (by decide)))

theorem infix_message (hw : word ∈ hintWords) (reason : String) (m : Mismatch) (path : String)
    (mark : Mark) : word <:+: ((mismatch m path mark).message reason).toList ↔
      word <:+: path.toList ∨ word <:+: m.text.toList := by
  have hmessage : ((mismatch m path mark).message reason).toList =
      ((if path = "" then "" else path ++ ": ") ++ m.text).toList ++ (place mark).toList := by
    rw [message, String.toList_append]
  rw [hmessage, infix_place hw]
  by_cases hp : path = ""
  · subst hp
    have hnil : ¬word <:+: "".toList := fun h =>
      (Project.bare_of_mem hw).ne_nil (List.infix_nil.mp h)
    rw [or_iff_right hnil]
    simp
  · have hpath : ((if path = "" then "" else path ++ ": ") ++ m.text).toList =
        path.toList ++ ':' :: ' ' :: m.text.toList := by
      simp [hp]
    rw [hpath, Mismatch.infix_labelled hw]

end Project.Rejection

end SourceBundle
