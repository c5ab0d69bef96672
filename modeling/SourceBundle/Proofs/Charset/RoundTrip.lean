import SourceBundle.Proofs.Charset
import SourceBundle.Proofs.Text.WellFormed

/-! # There and back

UTF-8 loses no text and keeps exactly the octets that are well formed. The other charsets have one
octet for a character: they keep the characters up to their limit and write a question mark, which
they have, for every other one. In each charset a text that has been written once is written the
same again.
-/
namespace SourceBundle.Charset

open Text.Utf8 (Octets)

variable {limit : Nat} {c : Char} {text : List Char}

/-- What is written is an octet that the charset has. -/
theorem encodeChar_le (hmark : '?'.toNat ≤ limit) (hl : limit ≤ 0xFF) (c : Char) :
    (encodeChar limit c).toNat ≤ limit := by
  unfold encodeChar
  split
  · rename_i hc
    rwa [Text.Utf8.toNat_ofNat (by omega)]
  · exact hmark

theorem decodeOctet_encodeChar_of_le (hl : limit ≤ 0xFF) (hc : c.toNat ≤ limit) :
    decodeOctet limit (encodeChar limit c) = c := by
  have hoctet : (UInt8.ofNat c.toNat).toNat = c.toNat := Text.Utf8.toNat_ofNat (by omega)
  rw [encodeChar, if_pos hc, decodeOctet, hoctet, if_pos hc, Char.ofNat_toNat]

/-- What is read is a character that the charset has. -/
theorem decodeOctet_encodeChar_le (hmark : '?'.toNat ≤ limit) (hl : limit ≤ 0xFF) (c : Char) :
    (decodeOctet limit (encodeChar limit c)).toNat ≤ limit := by
  have hle := encodeChar_le hmark hl c
  rw [decodeOctet, if_pos hle, toNat_ofNat_toNat]
  exact hle

theorem decodeOctet_encodeChar_iff (hmark : '?'.toNat ≤ limit) (hl : limit ≤ 0xFF) :
    decodeOctet limit (encodeChar limit c) = c ↔ c.toNat ≤ limit := by
  constructor
  · intro h
    exact h ▸ decodeOctet_encodeChar_le hmark hl c
  · exact decodeOctet_encodeChar_of_le hl

theorem map_encodeChar_iff (hmark : '?'.toNat ≤ limit) (hl : limit ≤ 0xFF) :
    (text.map (encodeChar limit)).map (decodeOctet limit) = text ↔ ∀ c ∈ text, c.toNat ≤ limit := by
  have hmap : text.map (decodeOctet limit ∘ encodeChar limit) = text.map id ↔
      ∀ c ∈ text, decodeOctet limit (encodeChar limit c) = c := List.map_inj_left
  rw [List.map_id] at hmap
  rw [List.map_map, hmap]
  refine forall₂_congr fun c _ => ?_
  exact decodeOctet_encodeChar_iff hmark hl

theorem map_encodeChar_again (hmark : '?'.toNat ≤ limit) (hl : limit ≤ 0xFF) (text : List Char) :
    ((text.map (encodeChar limit)).map (decodeOctet limit)).map (encodeChar limit) =
      text.map (encodeChar limit) := by
  rw [List.map_map, List.map_map]
  apply List.map_congr_left
  intro c _
  exact encodeChar_decodeOctet (encodeChar_le hmark hl c)

theorem encode_decode_encode (charset : Charset) (text : List Char) :
    charset.encode (charset.decode (charset.encode text)) = charset.encode text := by
  cases charset with
  | utf8 => exact congrArg Text.Utf8.encode (Text.Utf8.decode_encode text)
  | latin1 => exact map_encodeChar_again (by decide) (by decide) text
  | ascii => exact map_encodeChar_again (by decide) (by decide) text

/-- What comes back from each charset: which texts, which octets and what else. -/
theorem round_trips :
    (∀ text, utf8.decode (utf8.encode text) = text) ∧
      (∀ octets, utf8.encode (utf8.decode octets) = octets ↔ Text.Utf8.WellFormed octets) ∧
      (∀ octets, latin1.encode (latin1.decode octets) = octets) ∧
      (∀ text, latin1.decode (latin1.encode text) = text ↔ ∀ c ∈ text, c.toNat ≤ 0xFF) ∧
      (∀ octets, ascii.encode (ascii.decode octets) =
        octets.map fun b => if b.toNat < 0x80 then b else '?'.toUInt8) ∧
      (∀ text, ascii.decode (ascii.encode text) = text ↔ ∀ c ∈ text, c.toNat < 0x80) ∧
      ∀ charset : Charset,
        (∀ text, charset.encode (charset.decode (charset.encode text)) = charset.encode text) ∧
          ∀ s t, charset.encode (s ++ t) = charset.encode s ++ charset.encode t := by
  have hlatin1 : ∀ octets, latin1.Takes octets := fun _ h => nomatch h
  have hascii : ∀ octets, ascii.Takes octets := fun _ h => nomatch h
  refine ⟨Text.Utf8.decode_encode, fun _ => Text.Utf8.encode_decode_iff, ?_, ?_, ?_, ?_, ?_⟩
  · intro octets
    exact encode_decode (hlatin1 octets)
  · intro text
    exact map_encodeChar_iff (by decide) (by decide)
  · intro octets
    exact encode_decode (hascii octets)
  · intro text
    simp only [Nat.lt_succ_iff]
    exact map_encodeChar_iff (by decide) (by decide)
  · intro charset
    exact ⟨charset.encode_decode_encode, charset.encode_append⟩

end SourceBundle.Charset
