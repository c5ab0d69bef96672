import Mathlib.Data.String.Basic
import Mathlib.Tactic.Ring
import SourceBundle.Text.Utf8

/-! # What UTF-8 does to ASCII

An ASCII character is one octet, and that octet stands for it wherever it lies, also behind a
character that has only begun. No other octet yields or belongs to an ASCII character. So a text
and its octets can be cut at the same ASCII characters, whether or not the octets are valid.
-/
namespace SourceBundle.Text

/-- What lies before a symbol that a first part does not hold begins with that part. -/
theorem append_eq_append_cons {α : Type} {out rest before after : List α} {c : α} (hc : c ∉ out)
    (h : out ++ rest = before ++ c :: after) :
    ∃ left, before = out ++ left ∧ rest = left ++ c :: after := by
  rcases List.append_eq_append_iff.mp h with ⟨left, hb, hr⟩ | ⟨left, ho, hr⟩
  · exact ⟨left, hb, hr⟩
  · cases left with
    | nil => exact ⟨[], by simpa using ho.symm, hr.symm⟩
    | cons a left =>
      rw [List.cons_append] at hr
      obtain ⟨rfl, -⟩ := List.cons.inj hr
      exact absurd (ho ▸ List.mem_append_right _ List.mem_cons_self) hc

namespace Utf8

abbrev IsAscii (c : Char) : Prop := c.toNat < 0x80

theorem toNat_of_isValidChar {n : Nat} (h : n.isValidChar) : (Char.ofNat n).toNat = n := by
  rw [Char.ofNat, dif_pos h]
  rfl

/-- The octet of an ASCII character. -/
def octet (c : Char) : UInt8 := UInt8.ofNat c.toNat

theorem toNat_octet {c : Char} (hc : IsAscii c) : (octet c).toNat = c.toNat := by
  rw [octet, UInt8.toNat_ofNat']
  exact Nat.mod_eq_of_lt (by omega)

theorem octet_eq_iff {c : Char} (hc : IsAscii c) {b : UInt8} :
    octet c = b ↔ Char.ofNat b.toNat = c ∧ b.toNat < 0x80 := by
  constructor
  · rintro rfl
    rw [toNat_octet hc]
    exact ⟨c.ofNat_toNat, hc⟩
  · rintro ⟨rfl, hb⟩
    have hv : b.toNat.isValidChar := Or.inl (by omega)
    rw [octet, toNat_of_isValidChar hv, UInt8.ofNat_toNat]

theorem exists_octet {b : UInt8} (hb : b.toNat < 0x80) : ∃ c, IsAscii c ∧ b = octet c := by
  have hv : b.toNat.isValidChar := Or.inl (by omega)
  have hn : (Char.ofNat b.toNat).toNat = b.toNat := toNat_of_isValidChar hv
  have hc : IsAscii (Char.ofNat b.toNat) := by rwa [IsAscii, hn]
  exact ⟨Char.ofNat b.toNat, hc, ((octet_eq_iff hc).mpr ⟨rfl, hb⟩).symm⟩

/-! ## Characters that have begun -/

namespace Pending

/-- The least number that the character can come to. -/
def first (p : Pending) : Nat := (p.bits * 64 + (p.next.low - 0x80)) * 64 ^ p.more

/-- All the numbers that it can come to are less. -/
def limit (p : Pending) : Nat := (p.bits * 64 + (p.next.high - 0x80) + 1) * 64 ^ p.more

/-- Whatever follows, it becomes a character, and not an ASCII one. -/
structure Sound (p : Pending) : Prop where
  low : 0x80 ≤ p.next.low
  high : p.next.high ≤ 0xBF
  first : 0x80 ≤ p.first
  valid : p.limit ≤ 0xD800 ∨ 0xE000 ≤ p.first ∧ p.limit ≤ 0x110000

theorem sound_lead {n : Nat} {p : Pending} (h : lead? n = some p) : p.Sound := by
  unfold lead? at h
  simp only [Bool.and_eq_true, decide_eq_true_eq, beq_iff_eq] at h
  split_ifs at h <;> obtain rfl := Option.some.inj h <;> constructor <;>
    simp only [Pending.first, limit, continuation] <;> omega

variable {p : Pending} {b : UInt8} {n : Nat}

theorem holds_iff {r : Range} : r.holds b = true ↔ r.low ≤ b.toNat ∧ b.toNat ≤ r.high := by
  rw [Range.holds, Bool.and_eq_true, decide_eq_true_eq, decide_eq_true_eq]

theorem Sound.next (h : p.Sound) (hb : p.next.holds b = true) (hn : p.more = n + 1) :
    Sound ⟨p.bits * 64 + (b.toNat - 0x80), continuation, n⟩ := by
  obtain ⟨hlow, hhigh⟩ := holds_iff.mp hb
  have hfirst : p.first ≤ Pending.first ⟨p.bits * 64 + (b.toNat - 0x80), continuation, n⟩ := by
    simp only [Pending.first, continuation, hn, Nat.sub_self, Nat.add_zero, Nat.mul_assoc]
    rw [← Nat.pow_succ']
    exact Nat.mul_le_mul_right _ (by omega)
  have hlimit : Pending.limit ⟨p.bits * 64 + (b.toNat - 0x80), continuation, n⟩ ≤ p.limit := by
    have heq : Pending.limit ⟨p.bits * 64 + (b.toNat - 0x80), continuation, n⟩ =
        (p.bits * 64 + (b.toNat - 0x80) + 1) * 64 ^ (n + 1) := by
      simp only [limit, continuation, Nat.pow_succ']
      ring
    rw [heq, limit, hn]
    exact Nat.mul_le_mul_right _ (by omega)
  refine ⟨Nat.le_refl _, Nat.le_refl _, h.first.trans hfirst, ?_⟩
  rcases h.valid with hv | ⟨hv, hv'⟩
  · exact Or.inl (hlimit.trans hv)
  · exact Or.inr ⟨hv.trans hfirst, hlimit.trans hv'⟩

/-- What the last octet makes of it. -/
theorem Sound.last (h : p.Sound) (hb : p.next.holds b = true) (hn : p.more = 0) :
    0x80 ≤ (Char.ofNat (p.bits * 64 + (b.toNat - 0x80))).toNat := by
  obtain ⟨hlow, hhigh⟩ := holds_iff.mp hb
  have hfirst := h.first
  have hvalid := h.valid
  simp only [Pending.first, limit, hn, Nat.pow_zero, Nat.mul_one] at hfirst hvalid
  have hv : (p.bits * 64 + (b.toNat - 0x80)).isValidChar := by
    unfold Nat.isValidChar
    omega
  rw [toNat_of_isValidChar hv]
  omega

end Pending

/-- Whatever is pending will not become an ASCII character. -/
def Steady (pending : Option Pending) : Prop := ∀ p ∈ pending, p.Sound

theorem steady_none : Steady none := fun _ h => by cases h

variable {pending : Option Pending} {c : Char} {b : UInt8} {octets rest : Octets}

theorem start_octet (hc : IsAscii c) : start (octet c) = ([c], none) := by
  rw [start, if_pos ((toNat_octet hc).trans_lt hc), toNat_octet hc, Char.ofNat_toNat]

/-- An ASCII octet ends what is pending and stands for itself. -/
theorem step_octet (h : Steady pending) (hc : IsAscii c) :
    step pending (octet c) = (run pending [] ++ [c], none) := by
  cases pending with
  | none => exact start_octet hc
  | some p =>
    have hn : ¬p.next.holds (octet c) = true := by
      rw [Pending.holds_iff, toNat_octet hc]
      have := (h p rfl).low
      omega
    simp only [step, if_neg hn, start_octet hc]
    rfl

theorem not_isAscii_replacement : ¬IsAscii replacement := by simp [IsAscii, replacement]

theorem start_high (hb : 0x80 ≤ b.toNat) :
    (∀ c ∈ (start b).1, ¬IsAscii c) ∧ Steady (start b).2 := by
  unfold start
  rw [if_neg (Nat.not_lt.mpr hb)]
  split
  · rename_i p hp
    refine ⟨by simp, ?_⟩
    intro q hq
    exact Option.some.inj hq ▸ Pending.sound_lead hp
  · refine ⟨?_, steady_none⟩
    simp only [List.mem_singleton, forall_eq]
    exact not_isAscii_replacement

/-- Any other octet yields no ASCII character. -/
theorem step_high (h : Steady pending) (hb : 0x80 ≤ b.toNat) :
    (∀ c ∈ (step pending b).1, ¬IsAscii c) ∧ Steady (step pending b).2 := by
  obtain ⟨hout, hnext⟩ := start_high hb
  cases pending with
  | none => exact ⟨hout, hnext⟩
  | some p =>
    have hp := h p rfl
    simp only [step]
    split
    · rename_i hh
      split
      · rename_i hm
        refine ⟨?_, steady_none⟩
        simp only [List.mem_singleton, forall_eq]
        exact Nat.not_lt.mpr (hp.last hh hm)
      · rename_i n hm
        refine ⟨by simp, ?_⟩
        intro q hq
        exact Option.some.inj hq ▸ hp.next hh hm
    · refine ⟨?_, hnext⟩
      simp only [List.mem_cons, forall_eq_or_imp]
      exact ⟨not_isAscii_replacement, hout⟩

theorem Steady.step (h : Steady pending) (b : UInt8) : Steady (Utf8.step pending b).2 := by
  by_cases hb : b.toNat < 0x80
  · obtain ⟨c, hc, rfl⟩ := exists_octet hb
    rw [step_octet h hc]
    exact steady_none
  · exact (step_high h (Nat.le_of_not_lt hb)).2

/-! ## Cutting at an ASCII character -/

theorem run_cons (pending : Option Pending) (b : UInt8) (rest : Octets) :
    run pending (b :: rest) = (step pending b).1 ++ run (step pending b).2 rest := by
  cases pending <;> rfl

theorem not_mem_run_nil (hc : IsAscii c) : c ∉ run pending [] := by
  cases pending with
  | none => exact List.not_mem_nil
  | some p =>
    intro hm
    exact not_isAscii_replacement (List.mem_singleton.mp hm ▸ hc)

theorem run_append_octet (h : Steady pending) (hc : IsAscii c) (front rest : Octets) :
    run pending (front ++ octet c :: rest) = run pending front ++ c :: run none rest := by
  induction front generalizing pending with
  | nil => rw [List.nil_append, run_cons, step_octet h hc, List.append_assoc, List.singleton_append]
  | cons b front ih =>
    rw [List.cons_append, run_cons, run_cons, ih (h.step b), List.append_assoc]

theorem exists_of_run {before after : List Char} (h : Steady pending) (hc : IsAscii c)
    (hr : run pending octets = before ++ c :: after) : ∃ front rest,
      octets = front ++ octet c :: rest ∧ run pending front = before ∧ run none rest = after := by
  induction octets generalizing pending before with
  | nil => exact absurd (hr ▸ List.mem_append_right _ List.mem_cons_self) (not_mem_run_nil hc)
  | cons b octets ih =>
    rw [run_cons] at hr
    by_cases hb : b.toNat < 0x80
    · obtain ⟨d, hd, rfl⟩ := exists_octet hb
      simp only [step_octet h hd, List.append_assoc, List.singleton_append] at hr
      obtain ⟨left, rfl, hrest⟩ := append_eq_append_cons (not_mem_run_nil hc) hr
      cases left with
      | nil =>
        obtain ⟨rfl, rfl⟩ := List.cons.inj hrest
        exact ⟨[], octets, rfl, (List.append_nil _).symm, rfl⟩
      | cons e left =>
        obtain ⟨rfl, hleft⟩ := List.cons.inj hrest
        obtain ⟨front, rest, rfl, rfl, ha⟩ := ih steady_none hleft
        exact ⟨octet d :: front, rest, rfl, run_append_octet h hd [] front, ha⟩
    · obtain ⟨hout, hnext⟩ := step_high h (Nat.le_of_not_lt hb)
      obtain ⟨left, rfl, hrest⟩ := append_eq_append_cons (fun hm => hout c hm hc) hr
      obtain ⟨front, rest, rfl, rfl, ha⟩ := ih hnext hrest
      exact ⟨b :: front, rest, rfl, run_cons pending b front, ha⟩

theorem run_some_ne_nil (p : Pending) (octets : Octets) : run (some p) octets ≠ [] := by
  induction octets generalizing p with
  | nil => exact List.cons_ne_nil _ _
  | cons b rest ih =>
    rw [run_cons, step]
    split
    · split
      · exact List.cons_ne_nil _ _
      · exact ih _
    · exact List.cons_ne_nil _ _

/-- Only no octets have no text. -/
theorem decode_eq_nil (h : decode octets = []) : octets = [] := by
  cases octets with
  | nil => rfl
  | cons b rest =>
    rw [decode, run_cons, step, start] at h
    split at h
    · exact absurd h (List.cons_ne_nil _ _)
    · split at h
      · exact absurd h (run_some_ne_nil _ _)
      · exact absurd h (List.cons_ne_nil _ _)

/-! ## Characters that are whole -/

theorem run_lead {p : Pending} (h : lead? b.toNat = some p) :
    run none (b :: rest) = run (some p) rest := by
  have hb : ¬b.toNat < 0x80 := by
    intro hb
    simp only [lead?, Bool.and_eq_true, decide_eq_true_eq, beq_iff_eq] at h
    split_ifs at h <;> omega
  rw [run_cons, step, start, if_neg hb, h]
  rfl

theorem run_more {p : Pending} {n : Nat} (hb : p.next.holds b = true) (hn : p.more = n + 1) :
    run (some p) (b :: rest) =
      run (some ⟨p.bits * 64 + (b.toNat - 0x80), continuation, n⟩) rest := by
  simp only [run_cons, step, if_pos hb, hn]
  rfl

theorem run_last {p : Pending} (hb : p.next.holds b = true) (hn : p.more = 0) :
    run (some p) (b :: rest) = Char.ofNat (p.bits * 64 + (b.toNat - 0x80)) :: run none rest := by
  simp only [run_cons, step, if_pos hb, hn]
  rfl

/-- The octets of a character behind its first: each holds six of its bits. -/
def trail (n : Nat) : UInt8 := UInt8.ofNat (n % 64 + 128)

theorem toNat_trail (n : Nat) : (trail n).toNat = n % 64 + 128 := by
  rw [trail, UInt8.toNat_ofNat']
  omega

theorem holds_trail (n : Nat) : continuation.holds (trail n) = true := by
  rw [Pending.holds_iff, toNat_trail]
  simp only [continuation]
  omega

theorem run_trail {p : Pending} {n m : Nat} (hb : p.next.holds (trail n) = true)
    (hn : p.more = m + 1) : run (some p) (trail n :: rest) =
      run (some ⟨p.bits * 64 + n % 64, continuation, m⟩) rest := by
  rw [run_more hb hn, toNat_trail, Nat.add_sub_cancel]

theorem run_continuation (bits m n : Nat) (rest : Octets) :
    run (some ⟨bits, continuation, m + 1⟩) (trail n :: rest) =
      run (some ⟨bits * 64 + n % 64, continuation, m⟩) rest :=
  run_trail (p := ⟨bits, continuation, m + 1⟩) (holds_trail n) rfl

theorem run_continuation_last (bits n : Nat) (rest : Octets) :
    run (some ⟨bits, continuation, 0⟩) (trail n :: rest) =
      Char.ofNat (bits * 64 + n % 64) :: run none rest := by
  rw [run_last (p := ⟨bits, continuation, 0⟩) (holds_trail n) rfl, toNat_trail,
    Nat.add_sub_cancel]

theorem toNat_ofNat {n : Nat} (h : n < 256) : (UInt8.ofNat n).toNat = n := by
  rw [UInt8.toNat_ofNat']
  exact Nat.mod_eq_of_lt h

/-- The first octet of three. -/
theorem exists_lead_three {n : Nat} (hn : 0x800 ≤ n) (hn' : n < 0x10000)
    (hv : n < 0xD800 ∨ 0xDFFF < n) : ∃ p, lead? (n / 4096 % 16 + 224) = some p ∧
      p.bits = n / 4096 ∧ p.more = 1 ∧ p.next.holds (trail (n / 64)) = true := by
  simp only [Pending.holds_iff, toNat_trail, lead?, Bool.and_eq_true, decide_eq_true_eq, beq_iff_eq]
  split_ifs <;> first
    | omega
    | refine ⟨_, rfl, ?_, rfl, ?_⟩ <;> simp only [continuation] <;> omega

/-- The first octet of four. -/
theorem exists_lead_four {n : Nat} (hn : 0x10000 ≤ n) (hn' : n < 0x110000) :
    ∃ p, lead? (n / 262144 % 8 + 240) = some p ∧
      p.bits = n / 262144 ∧ p.more = 2 ∧ p.next.holds (trail (n / 4096)) = true := by
  simp only [Pending.holds_iff, toNat_trail, lead?, Bool.and_eq_true, decide_eq_true_eq, beq_iff_eq]
  split_ifs <;> first
    | omega
    | refine ⟨_, rfl, ?_, rfl, ?_⟩ <;> simp only [continuation] <;> omega

/-- A character is read off its octets, whatever follows. -/
theorem run_encodeChar (c : Char) (rest : Octets) :
    run none (String.utf8EncodeChar c ++ rest) = c :: run none rest := by
  obtain ⟨n, hn⟩ : ∃ n, c.toNat = n := ⟨_, rfl⟩
  have hc : Char.ofNat n = c := hn ▸ c.ofNat_toNat
  have hv : n < 0xD800 ∨ 0xDFFF < n ∧ n < 0x110000 := hn ▸ c.valid
  unfold String.utf8EncodeChar
  simp only [Char.toNat_val, hn]
  split_ifs with h₁ h₂ h₃
  · have ho : UInt8.ofNat n = octet c := by rw [octet, hn]
    have hascii : IsAscii c := by
      rw [IsAscii, hn]
      omega
    rw [ho]
    exact run_append_octet steady_none hascii [] rest
  · have hlead : lead? (UInt8.ofNat (n / 64 % 32 + 192)).toNat =
        some ⟨n / 64, continuation, 0⟩ := by
      have hlow : 0xC2 ≤ n / 64 % 32 + 192 := by omega
      have hhigh : n / 64 % 32 + 192 ≤ 0xDF := by omega
      have hbits : n / 64 % 32 + 192 - 0xC0 = n / 64 := by omega
      rw [toNat_ofNat (by omega), lead?, decide_eq_true hlow, decide_eq_true hhigh, hbits]
      rfl
    have hsum : n / 64 * 64 + n % 64 = n := by omega
    calc
      _ = run (some ⟨n / 64, continuation, 0⟩) (trail n :: rest) := run_lead hlead
      _ = c :: run none rest := by rw [run_continuation_last, hsum, hc]
  · obtain ⟨p, hp, hbits, hmore, hholds⟩ := exists_lead_three (n := n) (by omega) (by omega) (by omega)
    rw [← toNat_ofNat (n := n / 4096 % 16 + 224) (by omega)] at hp
    have hsum : (n / 4096 * 64 + n / 64 % 64) * 64 + n % 64 = n := by omega
    calc
      _ = run (some p) (trail (n / 64) :: trail n :: rest) := run_lead hp
      _ = run (some ⟨n / 4096 * 64 + n / 64 % 64, continuation, 0⟩) (trail n :: rest) := by
        rw [run_trail hholds hmore, hbits]
      _ = c :: run none rest := by rw [run_continuation_last, hsum, hc]
  · obtain ⟨p, hp, hbits, hmore, hholds⟩ := exists_lead_four (n := n) (by omega) (by omega)
    rw [← toNat_ofNat (n := n / 262144 % 8 + 240) (by omega)] at hp
    have hsum : ((n / 262144 * 64 + n / 4096 % 64) * 64 + n / 64 % 64) * 64 + n % 64 = n := by
      omega
    calc
      _ = run (some p) (trail (n / 4096) :: trail (n / 64) :: trail n :: rest) := run_lead hp
      _ = run (some ⟨n / 262144 * 64 + n / 4096 % 64, continuation, 1⟩)
          (trail (n / 64) :: trail n :: rest) := by rw [run_trail hholds hmore, hbits]
      _ = run (some ⟨(n / 262144 * 64 + n / 4096 % 64) * 64 + n / 64 % 64, continuation, 0⟩)
          (trail n :: rest) := run_continuation _ _ _ _
      _ = c :: run none rest := by rw [run_continuation_last, hsum, hc]

theorem encode_cons (c : Char) (text : List Char) :
    encode (c :: text) = String.utf8EncodeChar c ++ encode text :=
  List.flatMap_cons

/-- Encoding loses nothing. -/
theorem decode_encode (text : List Char) : decode (encode text) = text := by
  induction text with
  | nil => rfl
  | cons c text ih =>
    rw [encode_cons]
    exact (run_encodeChar c (encode text)).trans (congrArg (c :: ·) ih)

/-! ## Valid octets -/

/-- The octets are those of a text. -/
def Valid (octets : Octets) : Prop := ∃ text, encode text = octets

theorem Valid.encode_decode (h : Valid octets) : encode (decode octets) = octets := by
  obtain ⟨text, rfl⟩ := h
  rw [decode_encode]

theorem encodeChar_ascii (hc : IsAscii c) : String.utf8EncodeChar c = [octet c] := by
  have hle : c.val.toNat ≤ 0x7F := Nat.le_of_lt_succ hc
  simp only [String.utf8EncodeChar, if_pos hle]
  rfl

theorem encodeChar_high {c : Char} (hc : ¬IsAscii c) :
    ∀ b ∈ String.utf8EncodeChar c, 0x80 ≤ b.toNat := by
  have hlt : ¬c.val.toNat ≤ 0x7F := fun h => hc (Nat.lt_succ_of_le h)
  simp only [String.utf8EncodeChar, if_neg hlt]
  split_ifs <;> simp only [List.mem_cons, List.not_mem_nil, or_false, forall_eq_or_imp, forall_eq,
    UInt8.toNat_ofNat'] <;> omega

theorem octet_inj {c d : Char} (hc : IsAscii c) (hd : IsAscii d) (h : octet c = octet d) :
    c = d := by
  have hofNat := ((octet_eq_iff hc).mp h).1
  rw [toNat_octet hd, Char.ofNat_toNat] at hofNat
  exact hofNat.symm

/-- An ASCII octet in an encoded text is an ASCII character of the text. -/
theorem exists_of_encode {text : List Char} {front : Octets} (hc : IsAscii c)
    (h : encode text = front ++ octet c :: rest) : ∃ before after,
      text = before ++ c :: after ∧ encode before = front ∧ encode after = rest := by
  induction text generalizing front with
  | nil => exact absurd h.symm (List.append_ne_nil_of_right_ne_nil _ (List.cons_ne_nil _ _))
  | cons d text ih =>
    rw [encode_cons] at h
    by_cases hd : IsAscii d
    · rw [encodeChar_ascii hd, List.singleton_append] at h
      cases front with
      | nil =>
        obtain ⟨ho, hrest⟩ := List.cons.inj h
        exact ⟨[], text, by rw [octet_inj hd hc ho]; rfl, rfl, hrest⟩
      | cons b front =>
        obtain ⟨rfl, hrest⟩ := List.cons.inj h
        obtain ⟨before, after, rfl, rfl, ha⟩ := ih hrest
        exact ⟨d :: before, after, rfl, by rw [encode_cons, encodeChar_ascii hd]; rfl, ha⟩
    · have hn : octet c ∉ String.utf8EncodeChar d := by
        intro hm
        have hhigh := encodeChar_high hd _ hm
        rw [toNat_octet hc] at hhigh
        exact absurd hc (Nat.not_lt.mpr hhigh)
      obtain ⟨left, rfl, hrest⟩ := append_eq_append_cons hn h
      obtain ⟨before, after, rfl, rfl, ha⟩ := ih hrest
      exact ⟨d :: before, after, rfl, encode_cons d before, ha⟩

/-- Octets cut at an ASCII octet stay valid. -/
theorem Valid.cut {front : Octets} (hc : IsAscii c) (h : Valid (front ++ octet c :: rest)) :
    Valid front ∧ Valid rest := by
  obtain ⟨text, ht⟩ := h
  obtain ⟨before, after, -, hb, ha⟩ := exists_of_encode hc ht
  exact ⟨⟨before, hb⟩, ⟨after, ha⟩⟩

end Utf8

end SourceBundle.Text
