import SourceBundle.Charset
import SourceBundle.Proofs.Text.Utf8

/-! # Charsets agree on ASCII

Every charset reads an ASCII octet as its character, and reads such a character nowhere else. So a
text can be cut at the words of ASCII characters in it before or after it is decoded.
-/
namespace SourceBundle.Charset

open Text.Utf8 (Octets IsAscii octet)

variable {charset : Charset} {c : Char} {b : UInt8} {limit : Nat} {octets : Octets}
  {before after word : List Char}

/-- Every octet is the number of a character. -/
theorem toNat_ofNat_toNat (b : UInt8) : (Char.ofNat b.toNat).toNat = b.toNat := by
  have hv : b.toNat.isValidChar := Or.inl (b.toNat_lt.trans (by decide))
  exact Text.Utf8.toNat_of_isValidChar hv

theorem decodeOctet_eq_iff (hl : 0x7F ≤ limit) (hc : IsAscii c) :
    decodeOctet limit b = c ↔ b = octet c := by
  rw [eq_comm (a := b), Text.Utf8.octet_eq_iff hc, decodeOctet]
  by_cases hb : b.toNat ≤ limit
  · rw [if_pos hb]
    refine ⟨fun h => ⟨h, ?_⟩, fun h => h.1⟩
    have hn := congrArg Char.toNat h
    rw [toNat_ofNat_toNat] at hn
    exact hn ▸ hc
  · rw [if_neg hb]
    constructor
    · rintro rfl
      exact absurd hc Text.Utf8.not_isAscii_replacement
    · rintro ⟨-, hlt⟩
      omega

theorem decodeOctet_octet (hl : 0x7F ≤ limit) (hc : IsAscii c) : decodeOctet limit (octet c) = c :=
  (decodeOctet_eq_iff hl hc).mpr rfl

/-! ## One character -/

theorem decode_nil (charset : Charset) : charset.decode [] = [] := by
  cases charset <;> rfl

theorem decode_eq_nil (h : charset.decode octets = []) : octets = [] := by
  cases charset with
  | utf8 => exact Text.Utf8.decode_eq_nil h
  | latin1 => exact List.map_eq_nil_iff.mp h
  | ascii => exact List.map_eq_nil_iff.mp h

theorem map_decodeOctet_append (hl : 0x7F ≤ limit) (hc : IsAscii c) (front rest : Octets) :
    (front ++ octet c :: rest).map (decodeOctet limit) =
      front.map (decodeOctet limit) ++ c :: rest.map (decodeOctet limit) := by
  rw [List.map_append, List.map_cons, decodeOctet_octet hl hc]

theorem decode_append_octet (charset : Charset) (hc : IsAscii c) (front rest : Octets) :
    charset.decode (front ++ octet c :: rest) =
      charset.decode front ++ c :: charset.decode rest := by
  cases charset with
  | utf8 => exact Text.Utf8.run_append_octet Text.Utf8.steady_none hc front rest
  | latin1 => exact map_decodeOctet_append (by decide) hc front rest
  | ascii => exact map_decodeOctet_append (by decide) hc front rest

theorem exists_of_map_decodeOctet (hl : 0x7F ≤ limit) (hc : IsAscii c)
    (h : octets.map (decodeOctet limit) = before ++ c :: after) : ∃ front rest,
      octets = front ++ octet c :: rest ∧ front.map (decodeOctet limit) = before ∧
        rest.map (decodeOctet limit) = after := by
  obtain ⟨front, tail, rfl, hfront, htail⟩ := List.map_eq_append_iff.mp h
  obtain ⟨b, rest, rfl, hb, hrest⟩ := List.map_eq_cons_iff.mp htail
  obtain rfl := (decodeOctet_eq_iff hl hc).mp hb
  exact ⟨front, rest, rfl, hfront, hrest⟩

theorem exists_of_decode (hc : IsAscii c) (h : charset.decode octets = before ++ c :: after) :
    ∃ front rest, octets = front ++ octet c :: rest ∧ charset.decode front = before ∧
      charset.decode rest = after := by
  cases charset with
  | utf8 => exact Text.Utf8.exists_of_run Text.Utf8.steady_none hc h
  | latin1 => exact exists_of_map_decodeOctet (by decide) hc h
  | ascii => exact exists_of_map_decodeOctet (by decide) hc h

theorem getLast?_decode (hc : IsAscii c) :
    (charset.decode octets).getLast? = some c ↔ octets.getLast? = some (octet c) := by
  rw [List.getLast?_eq_some_iff, List.getLast?_eq_some_iff]
  constructor
  · rintro ⟨before, h⟩
    obtain ⟨front, rest, rfl, -, hrest⟩ := exists_of_decode hc h
    exact ⟨front, by rw [decode_eq_nil hrest]⟩
  · rintro ⟨front, rfl⟩
    exact ⟨charset.decode front, by rw [decode_append_octet charset hc, decode_nil]⟩

/-! ## A word -/

theorem decode_word_append (charset : Charset) (hw : ∀ c ∈ word, IsAscii c) (rest : Octets) :
    charset.decode (word.map octet ++ rest) = word ++ charset.decode rest := by
  induction word with
  | nil => rfl
  | cons c word ih =>
    have hcons := decode_append_octet charset (hw c List.mem_cons_self) [] (word.map octet ++ rest)
    rw [decode_nil, ih fun d hd => hw d (List.mem_cons_of_mem c hd)] at hcons
    exact hcons

theorem exists_of_decode_word (hw : ∀ c ∈ word, IsAscii c)
    (h : charset.decode octets = word ++ after) :
    ∃ rest, octets = word.map octet ++ rest ∧ charset.decode rest = after := by
  induction word generalizing octets with
  | nil => exact ⟨octets, rfl, h⟩
  | cons c word ih =>
    have hcons : charset.decode octets = [] ++ c :: (word ++ after) := h
    obtain ⟨front, rest, rfl, hf, hr⟩ := exists_of_decode (hw c List.mem_cons_self) hcons
    obtain rfl := decode_eq_nil hf
    obtain ⟨rest, rfl, ha⟩ := ih (fun d hd => hw d (List.mem_cons_of_mem c hd)) hr
    exact ⟨rest, rfl, ha⟩

/-- A word of ASCII characters stands alone, whatever lies around it. -/
theorem decode_append_word (charset : Charset) (hw : ∀ c ∈ word, IsAscii c) (hne : word ≠ [])
    (front rest : Octets) : charset.decode (front ++ word.map octet ++ rest) =
      charset.decode front ++ word ++ charset.decode rest := by
  cases word with
  | nil => exact absurd rfl hne
  | cons c word =>
    have htail := decode_word_append charset (fun d hd => hw d (List.mem_cons_of_mem c hd)) rest
    rw [List.map_cons, List.append_assoc, List.cons_append,
      decode_append_octet charset (hw c List.mem_cons_self), htail, List.append_assoc,
      List.cons_append]

theorem exists_of_decode_append_word (hw : ∀ c ∈ word, IsAscii c) (hne : word ≠ [])
    (h : charset.decode octets = before ++ word ++ after) :
    ∃ front rest, octets = front ++ word.map octet ++ rest ∧ charset.decode front = before ∧
      charset.decode rest = after := by
  cases word with
  | nil => exact absurd rfl hne
  | cons c word =>
    rw [List.append_assoc, List.cons_append] at h
    obtain ⟨front, tail, rfl, hf, ht⟩ := exists_of_decode (hw c List.mem_cons_self) h
    obtain ⟨rest, rfl, ha⟩ :=
      exists_of_decode_word (fun d hd => hw d (List.mem_cons_of_mem c hd)) ht
    exact ⟨front, rest, by rw [List.append_assoc]; rfl, hf, ha⟩

theorem infix_decode_iff (hw : ∀ c ∈ word, IsAscii c) (hne : word ≠ []) :
    word <:+: charset.decode octets ↔ word.map octet <:+: octets := by
  constructor
  · rintro ⟨before, after, h⟩
    obtain ⟨front, rest, rfl, -, -⟩ := exists_of_decode_append_word hw hne h.symm
    exact ⟨front, rest, rfl⟩
  · rintro ⟨front, rest, rfl⟩
    exact ⟨charset.decode front, charset.decode rest, (decode_append_word charset hw hne front rest).symm⟩

/-! ## There and back -/

theorem encode_append (charset : Charset) (s t : List Char) :
    charset.encode (s ++ t) = charset.encode s ++ charset.encode t := by
  cases charset with
  | utf8 => exact List.flatMap_append
  | latin1 => exact List.map_append
  | ascii => exact List.map_append

theorem encode_nil (charset : Charset) : charset.encode [] = [] := by
  cases charset <;> rfl

/-- UTF-8 is to be valid; the other charsets take every octet. -/
def Takes (charset : Charset) (octets : Octets) : Prop :=
  charset = .utf8 → Text.Utf8.Valid octets

/-- What is left of octets that are read and written again: US-ASCII puts a question mark for each
octet that it lacks. -/
def masked : Charset → Octets → Octets
  | ascii, octets => octets.map fun b => if b.toNat < 0x80 then b else '?'.toUInt8
  | _, octets => octets

theorem masked_nil (charset : Charset) : charset.masked [] = [] := by
  cases charset <;> rfl

theorem masked_append (charset : Charset) (front rest : Octets) :
    charset.masked (front ++ rest) = charset.masked front ++ charset.masked rest := by
  cases charset with
  | ascii => exact List.map_append
  | utf8 => rfl
  | latin1 => rfl

theorem Takes.cut_octet {front rest : Octets} (hc : IsAscii c)
    (h : charset.Takes (front ++ octet c :: rest)) : charset.Takes front ∧ charset.Takes rest :=
  ⟨fun hu => ((h hu).cut hc).1, fun hu => ((h hu).cut hc).2⟩

theorem Takes.drop_word {rest : Octets} (hw : ∀ c ∈ word, IsAscii c)
    (h : charset.Takes (word.map octet ++ rest)) : charset.Takes rest := by
  induction word with
  | nil => exact h
  | cons c word ih =>
    have hcons : charset.Takes ([] ++ octet c :: (word.map octet ++ rest)) := h
    exact ih (fun d hd => hw d (List.mem_cons_of_mem c hd))
      (hcons.cut_octet (hw c List.mem_cons_self)).2

theorem Takes.cut_word {front rest : Octets} (hw : ∀ c ∈ word, IsAscii c) (hne : word ≠ [])
    (h : charset.Takes (front ++ word.map octet ++ rest)) :
    charset.Takes front ∧ charset.Takes rest := by
  cases word with
  | nil => exact absurd rfl hne
  | cons c word =>
    rw [List.append_assoc, List.map_cons, List.cons_append] at h
    obtain ⟨hf, ht⟩ := h.cut_octet (hw c List.mem_cons_self)
    exact ⟨hf, ht.drop_word fun d hd => hw d (List.mem_cons_of_mem c hd)⟩

/-- An octet that the charset has comes back. -/
theorem encodeChar_decodeOctet (hb : b.toNat ≤ limit) :
    encodeChar limit (decodeOctet limit b) = b := by
  rw [decodeOctet, if_pos hb, encodeChar, toNat_ofNat_toNat, if_pos hb, UInt8.ofNat_toNat]

theorem encodeChar_decodeOctet_latin1 (b : UInt8) : encodeChar 0xFF (decodeOctet 0xFF b) = b :=
  encodeChar_decodeOctet (Nat.le_of_lt_succ b.toNat_lt)

theorem encodeChar_decodeOctet_ascii (b : UInt8) :
    encodeChar 0x7F (decodeOctet 0x7F b) = if b.toNat < 0x80 then b else '?'.toUInt8 := by
  by_cases hb : b.toNat < 0x80
  · rw [encodeChar_decodeOctet (Nat.le_of_lt_succ hb), if_pos hb]
  · have hreplacement : ¬Text.Utf8.replacement.toNat ≤ 0x7F :=
      fun h => Text.Utf8.not_isAscii_replacement (Nat.lt_succ_of_le h)
    rw [decodeOctet, if_neg (fun h => hb (Nat.lt_succ_of_le h)), encodeChar, if_neg hreplacement,
      if_neg hb]

theorem encode_decode (h : charset.Takes octets) :
    charset.encode (charset.decode octets) = charset.masked octets := by
  cases charset with
  | utf8 => exact (h rfl).encode_decode
  | latin1 => simp [encode, decode, masked, encodeChar_decodeOctet_latin1, Function.comp_def]
  | ascii => simp [encode, decode, masked, encodeChar_decodeOctet_ascii, Function.comp_def]

end SourceBundle.Charset
