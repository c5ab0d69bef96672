import SourceBundle.Proofs.Text.Utf8

/-! # The syntax of UTF-8

Octets are well formed if they are a row of characters, each spelled in the least number of octets
and none of them a surrogate or above U+10FFFF. These are the octets that texts are encoded to, and
so those that come back unchanged when they are decoded and encoded again.
-/
namespace SourceBundle.Text.Utf8

/-- Any octet of a character but the first. -/
abbrev Tail (b : UInt8) : Prop := 0x80 ≤ b.toNat ∧ b.toNat ≤ 0xBF

/-- The octets of one character. The first of them says how many there are. -/
inductive Spelled : Octets → Prop
  | one {a : UInt8} (ha : a.toNat ≤ 0x7F) : Spelled [a]
  | two {a b : UInt8} (ha : 0xC2 ≤ a.toNat ∧ a.toNat ≤ 0xDF) (hb : Tail b) : Spelled [a, b]
  | three {a b c : UInt8} (ha : 0xE0 ≤ a.toNat ∧ a.toNat ≤ 0xEF) (hb : Tail b) (hc : Tail c)
      (least : a.toNat = 0xE0 → 0xA0 ≤ b.toNat) (noSurrogate : a.toNat = 0xED → b.toNat ≤ 0x9F) :
      Spelled [a, b, c]
  | four {a b c d : UInt8} (ha : 0xF0 ≤ a.toNat ∧ a.toNat ≤ 0xF4) (hb : Tail b) (hc : Tail c)
      (hd : Tail d) (least : a.toNat = 0xF0 → 0x90 ≤ b.toNat)
      (within : a.toNat = 0xF4 → b.toNat ≤ 0x8F) : Spelled [a, b, c, d]

inductive WellFormed : Octets → Prop
  | nil : WellFormed []
  | cons {front rest : Octets} (hf : Spelled front) (hr : WellFormed rest) :
      WellFormed (front ++ rest)

variable {octets : Octets}

/-! ## Every character is spelled so -/

theorem tail_trail (n : Nat) : Tail (trail n) := by
  rw [Tail, toNat_trail]
  omega

theorem spelled_encodeChar (c : Char) : Spelled (String.utf8EncodeChar c) := by
  obtain ⟨n, hn⟩ : ∃ n, c.toNat = n := ⟨_, rfl⟩
  have hv : n < 0xD800 ∨ 0xDFFF < n ∧ n < 0x110000 := hn ▸ c.valid
  unfold String.utf8EncodeChar
  simp only [Char.toNat_val, hn]
  split_ifs with h₁ h₂ h₃
  · refine .one ?_
    rw [toNat_ofNat (by omega)]
    exact h₁
  · refine .two ?_ (tail_trail n)
    rw [toNat_ofNat (by omega)]
    omega
  · have hlead : (UInt8.ofNat (n / 4096 % 16 + 224)).toNat = n / 4096 + 224 := by
      rw [toNat_ofNat (by omega)]
      omega
    refine .three ?_ (tail_trail (n / 64)) (tail_trail n) ?_ ?_
    · omega
    · intro ha
      change 0xA0 ≤ (trail (n / 64)).toNat
      rw [toNat_trail]
      omega
    · intro ha
      change (trail (n / 64)).toNat ≤ 0x9F
      rw [toNat_trail]
      omega
  · have hlead : (UInt8.ofNat (n / 262144 % 8 + 240)).toNat = n / 262144 + 240 := by
      rw [toNat_ofNat (by omega)]
      omega
    refine .four ?_ (tail_trail (n / 4096)) (tail_trail (n / 64)) (tail_trail n) ?_ ?_
    · omega
    · intro ha
      change 0x90 ≤ (trail (n / 4096)).toNat
      rw [toNat_trail]
      omega
    · intro ha
      change (trail (n / 4096)).toNat ≤ 0x8F
      rw [toNat_trail]
      omega

theorem wellFormed_encode (text : List Char) : WellFormed (encode text) := by
  induction text with
  | nil => exact .nil
  | cons c text ih =>
    rw [encode_cons]
    exact .cons (spelled_encodeChar c) ih

/-! ## Every spelling is that of a character -/

theorem trail_eq {b : UInt8} (hb : Tail b) {n : Nat} (hn : n % 64 = b.toNat - 0x80) :
    trail n = b := by
  apply UInt8.toNat_inj.mp
  rw [toNat_trail]
  omega

theorem ofNat_eq {n : Nat} {b : UInt8} (h : n = b.toNat) : UInt8.ofNat n = b := by
  rw [h, UInt8.ofNat_toNat]

theorem Spelled.exists_char (h : Spelled octets) : ∃ c, String.utf8EncodeChar c = octets := by
  cases h with
  | @one a ha =>
    obtain ⟨c, hc, rfl⟩ := exists_octet (Nat.lt_succ_of_le ha)
    exact ⟨c, encodeChar_ascii hc⟩
  | @two a b ha hb =>
    obtain ⟨n, hn⟩ : ∃ n, n = (a.toNat - 0xC0) * 64 + (b.toNat - 0x80) := ⟨_, rfl⟩
    have hv : n.isValidChar := by
      unfold Nat.isValidChar
      omega
    refine ⟨Char.ofNat n, ?_⟩
    unfold String.utf8EncodeChar
    simp only [Char.toNat_val, toNat_of_isValidChar hv]
    rw [if_neg (by omega), if_pos (by omega), ofNat_eq (b := a) (by omega)]
    exact congrArg (fun b => [a, b]) (trail_eq hb (by omega))
  | @three a b c ha hb hc least noSurrogate =>
    obtain ⟨n, hn⟩ : ∃ n, n = (a.toNat - 0xE0) * 4096 + (b.toNat - 0x80) * 64 + (c.toNat - 0x80) :=
      ⟨_, rfl⟩
    have hv : n.isValidChar := by
      unfold Nat.isValidChar
      omega
    refine ⟨Char.ofNat n, ?_⟩
    unfold String.utf8EncodeChar
    simp only [Char.toNat_val, toNat_of_isValidChar hv]
    rw [if_neg (by omega), if_neg (by omega), if_pos (by omega), ofNat_eq (b := a) (by omega)]
    exact congrArg₂ (fun b c => [a, b, c]) (trail_eq hb (by omega)) (trail_eq hc (by omega))
  | @four a b c d ha hb hc hd least within =>
    obtain ⟨n, hn⟩ : ∃ n, n = (a.toNat - 0xF0) * 262144 + (b.toNat - 0x80) * 4096 +
        (c.toNat - 0x80) * 64 + (d.toNat - 0x80) := ⟨_, rfl⟩
    have hv : n.isValidChar := by
      unfold Nat.isValidChar
      omega
    refine ⟨Char.ofNat n, ?_⟩
    unfold String.utf8EncodeChar
    simp only [Char.toNat_val, toNat_of_isValidChar hv]
    rw [if_neg (by omega), if_neg (by omega), if_neg (by omega), ofNat_eq (b := a) (by omega)]
    have htail : [trail (n / 4096), trail (n / 64), trail n] = [b, c, d] := by
      rw [trail_eq hb (by omega), trail_eq hc (by omega), trail_eq hd (by omega)]
    exact congrArg (a :: ·) htail

theorem WellFormed.valid (h : WellFormed octets) : Valid octets := by
  induction h with
  | nil => exact ⟨[], rfl⟩
  | cons hf _ ih =>
    obtain ⟨c, rfl⟩ := hf.exists_char
    obtain ⟨text, rfl⟩ := ih
    exact ⟨c :: text, encode_cons c text⟩

/-- Octets are those of a text if and only if they are well formed. -/
theorem valid_iff_wellFormed : Valid octets ↔ WellFormed octets := by
  constructor
  · rintro ⟨text, rfl⟩
    exact wellFormed_encode text
  · exact WellFormed.valid

/-- Decoding loses something unless the octets are well formed. -/
theorem encode_decode_iff : encode (decode octets) = octets ↔ WellFormed octets := by
  rw [← valid_iff_wellFormed]
  exact ⟨fun h => ⟨decode octets, h⟩, Valid.encode_decode⟩

end SourceBundle.Text.Utf8
