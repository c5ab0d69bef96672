import SourceBundle.Proofs.Text.Search
import SourceBundle.Proofs.Text.WellFormed

/-! # Between two characters

Octets may be cut only where a character begins or where they end. In the octets of a text these
are the places where the octets of a front part of it end, and so the places before and behind every
ASCII octet.
-/
namespace SourceBundle.Text.Utf8

/-- Whether the octets may be cut here: at an end, or before the first octet of a character. -/
def isBoundary (octets : Octets) (n : Nat) : Bool :=
  n = 0 || match octets[n]? with
    | some b => !continuation.holds b
    | none => n = octets.length

/-- The octets between two places; there are none if one of these is no boundary or if they are
not in order. -/
def slice? (octets : Octets) (first last : Nat) : Option Octets :=
  if first ≤ last ∧ isBoundary octets first ∧ isBoundary octets last then
    some ((octets.take last).drop first)
  else none

variable {octets front rest : Octets} {text before after : List Char} {c : Char} {b : UInt8}
  {n first last : Nat}

theorem encode_append (before after : List Char) :
    encode (before ++ after) = encode before ++ encode after := List.flatMap_append

theorem isBoundary_zero (octets : Octets) : isBoundary octets 0 = true := rfl

theorem isBoundary_length (octets : Octets) : isBoundary octets octets.length = true := by
  simp [isBoundary]

theorem le_length_of_isBoundary (h : isBoundary octets n = true) : n ≤ octets.length := by
  by_contra hn
  have hnone : octets[n]? = none := List.getElem?_eq_none (Nat.le_of_not_le hn)
  simp only [isBoundary, hnone, Bool.or_eq_true, decide_eq_true_eq] at h
  omega

theorem slice?_eq_some_iff : slice? octets first last = some rest ↔
    (first ≤ last ∧ isBoundary octets first = true ∧ isBoundary octets last = true) ∧
      (octets.take last).drop first = rest := by
  unfold slice?
  split <;> simp_all

theorem isBoundary_append (front rest : Octets) (hn : 0 < n) :
    isBoundary (front ++ rest) (front.length + n) = isBoundary rest n := by
  have hget : (front ++ rest)[front.length + n]? = rest[n]? := by
    rw [List.getElem?_append_right (Nat.le_add_right _ _), Nat.add_sub_cancel_left]
  have hzero : decide (front.length + n = 0) = decide (n = 0) := by
    rw [decide_eq_decide]
    omega
  simp only [isBoundary, hget, hzero, List.length_append, Nat.add_left_cancel_iff]

/-! ## In the octets of a text -/

theorem isBoundary_iff_of_getElem? (h : octets[n]? = some b) (hn : 0 < n) :
    isBoundary octets n = true ↔ ¬Tail b := by
  have htail : ¬continuation.holds b = true ↔ ¬Tail b := not_congr Pending.holds_iff
  rw [← htail, isBoundary, h, decide_eq_false hn.ne', Bool.false_or, Bool.not_eq_true',
    Bool.not_eq_true]

/-- The first octet of a character is the only one that is no tail. -/
theorem Spelled.exists_lead (h : Spelled octets) :
    ∃ a tail, octets = a :: tail ∧ ¬Tail a ∧ ∀ b ∈ tail, Tail b := by
  cases h with
  | one ha => exact ⟨_, _, rfl, by omega, List.forall_mem_nil _⟩
  | two ha hb => exact ⟨_, _, rfl, by omega, List.forall_mem_singleton.mpr hb⟩
  | three ha hb hc =>
    exact ⟨_, _, rfl, by omega, List.forall_mem_cons.mpr ⟨hb, List.forall_mem_singleton.mpr hc⟩⟩
  | four ha hb hc hd =>
    exact ⟨_, _, rfl, by omega, List.forall_mem_cons.mpr
      ⟨hb, List.forall_mem_cons.mpr ⟨hc, List.forall_mem_singleton.mpr hd⟩⟩⟩

theorem exists_of_isBoundary (h : isBoundary (encode text) n = true) :
    ∃ before after, text = before ++ after ∧ (encode before).length = n := by
  induction text generalizing n with
  | nil => exact ⟨[], [], rfl, (Nat.le_zero.mp (le_length_of_isBoundary h)).symm⟩
  | cons c text ih =>
    obtain ⟨a, tail, hc, -, htail⟩ := (spelled_encodeChar c).exists_lead
    rcases Nat.eq_zero_or_pos n with rfl | hn
    · exact ⟨[], c :: text, rfl, rfl⟩
    rcases Nat.lt_trichotomy n (String.utf8EncodeChar c).length with hlt | rfl | hgt
    · -- Inside the character stand tails only.
      obtain ⟨m, rfl⟩ := Nat.exists_eq_succ_of_ne_zero hn.ne'
      rw [hc] at hlt
      have hm : m < tail.length := Nat.lt_of_succ_lt_succ hlt
      have hget : (encode (c :: text))[m + 1]? = some tail[m] := by
        rw [encode_cons, hc, List.cons_append, List.getElem?_cons_succ,
          List.getElem?_append_left hm, List.getElem?_eq_getElem hm]
      exact absurd (htail _ (List.getElem_mem hm)) ((isBoundary_iff_of_getElem? hget hn).mp h)
    · exact ⟨[c], text, rfl, by rw [encode_cons]; exact congrArg List.length (List.append_nil _)⟩
    · obtain ⟨k, rfl⟩ := Nat.exists_eq_add_of_lt hgt
      rw [encode_cons, Nat.add_assoc, isBoundary_append _ _ (Nat.succ_pos k)] at h
      obtain ⟨before, after, rfl, hk⟩ := ih h
      exact ⟨c :: before, after, rfl, by rw [encode_cons, List.length_append, hk, Nat.add_assoc]⟩

/-- The octets of a text may be cut where those of a front part of it end, and nowhere else. -/
theorem isBoundary_encode_iff : isBoundary (encode text) n = true ↔
    ∃ before after, text = before ++ after ∧ (encode before).length = n := by
  refine ⟨exists_of_isBoundary, ?_⟩
  rintro ⟨before, after, rfl, rfl⟩
  cases after with
  | nil =>
    rw [List.append_nil]
    exact isBoundary_length _
  | cons c after =>
    rcases Nat.eq_zero_or_pos (encode before).length with hn | hn
    · rw [hn]
      exact isBoundary_zero _
    obtain ⟨a, tail, hc, ha, -⟩ := (spelled_encodeChar c).exists_lead
    refine (isBoundary_iff_of_getElem? (b := a) ?_ hn).mpr ha
    rw [encode_append, List.getElem?_append_right (Nat.le_refl _), Nat.sub_self, encode_cons, hc]
    rfl

/-- The octets of a text may be cut on either side of an ASCII octet. -/
theorem isBoundary_of_ascii (hc : IsAscii c) (h : encode text = front ++ octet c :: rest) :
    isBoundary (encode text) front.length = true ∧
      isBoundary (encode text) (front.length + 1) = true := by
  obtain ⟨before, after, rfl, rfl, -⟩ := exists_of_encode hc h
  refine ⟨isBoundary_encode_iff.mpr ⟨before, c :: after, rfl, rfl⟩,
    isBoundary_encode_iff.mpr ⟨before ++ [c], after, by simp, ?_⟩⟩
  rw [encode_append, List.length_append, encode_cons, encodeChar_ascii hc]
  rfl

/-- They may be cut before and behind an ASCII word, and behind its first octet. -/
theorem isBoundary_of_occursAt {word : List Char} (hw : ∀ c ∈ word, IsAscii c) (hne : word ≠ [])
    (h : OccursAt (word.map octet) (encode text) n) :
    isBoundary (encode text) n = true ∧ isBoundary (encode text) (n + 1) = true ∧
      isBoundary (encode text) (n + word.length) = true := by
  have hword : word.map octet ≠ [] := mt List.map_eq_nil_iff.mp hne
  obtain ⟨front, rest, he, rfl⟩ := h.exists_eq (h.lt_length hword).le
  obtain ⟨hfirst, hsecond⟩ : isBoundary (encode text) front.length = true ∧
      isBoundary (encode text) (front.length + 1) = true := by
    obtain ⟨c, word, rfl⟩ := List.exists_cons_of_ne_nil hne
    rw [List.map_cons, List.append_assoc] at he
    exact isBoundary_of_ascii (hw c List.mem_cons_self) he
  refine ⟨hfirst, hsecond, ?_⟩
  obtain ⟨word, c, rfl⟩ := (List.eq_nil_or_concat word).resolve_left hne
  have hsplit : encode text = (front ++ word.map octet) ++ octet c :: rest := by
    rw [he]
    simp
  simpa [Nat.add_assoc] using (isBoundary_of_ascii (hw c (by simp)) hsplit).2

end SourceBundle.Text.Utf8
