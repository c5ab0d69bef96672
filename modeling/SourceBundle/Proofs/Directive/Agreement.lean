import SourceBundle.Proofs.Directive.Octets

/-! # Directives in every charset

Whether a file is accepted and how many directives it holds can be told from its octets. So two
charsets agree on that, and on what a directive names if its body is plain ASCII.
-/
namespace SourceBundle

open Text.Utf8 (Octets IsAscii octet)

variable {charset c d : Charset} {octets body : Octets} {file : String}

theorem Text.Utf8.exists_word (h : ∀ b ∈ body, b.toNat < 0x80) :
    ∃ word : List Char, (∀ c ∈ word, IsAscii c) ∧ body = word.map octet := by
  induction body with
  | nil => exact ⟨[], by simp, rfl⟩
  | cons b body ih =>
    obtain ⟨hb, hbody⟩ := List.forall_mem_cons.mp h
    obtain ⟨c, hc, rfl⟩ := exists_octet hb
    obtain ⟨word, hw, rfl⟩ := ih hbody
    exact ⟨c :: word, List.forall_mem_cons.mpr ⟨hc, hw⟩, rfl⟩

/-- ASCII octets are the same text in every charset. -/
theorem Charset.decode_congr (h : ∀ b ∈ body, b.toNat < 0x80) (c d : Charset) :
    c.decode body = d.decode body := by
  obtain ⟨word, hw, rfl⟩ := Text.Utf8.exists_word h
  have hword : ∀ charset : Charset, charset.decode (word.map octet) = word := by
    intro charset
    have hdecode := charset.decode_word_append hw []
    rwa [List.append_nil, charset.decode_nil, List.append_nil] at hdecode
  rw [hword, hword]

namespace Directive

/-- What a directive with this body names. -/
def reference (charset : Charset) (body : Octets) : String :=
  String.ofList (Text.trim (charset.decode body))

theorem scan_eq_ok_iff {found : Octets × List Octets} : scan octetSpelling octets = .ok found ↔
    ∃ m : Layout octetSpelling, m.text = octets ∧
      (m.parts.flatMap Part.piece ++ m.last, m.parts.map Part.body) = found := by
  constructor
  · intro h
    obtain ⟨parts, tail, rfl, hplain | ⟨p, rfl⟩⟩ := exists_joined regular_octetSpelling octets
    · refine ⟨⟨parts, tail, hplain⟩, rfl, ?_⟩
      exact Except.ok.inj ((scan_layout regular_octetSpelling ⟨parts, tail, hplain⟩).symm.trans h)
    · cases (scan_unclosed regular_octetSpelling ⟨parts, p⟩).symm.trans h
  · rintro ⟨m, rfl, rfl⟩
    exact scan_layout regular_octetSpelling m

/-- A file is accepted if and only if its directives are closed, in any charset, and it names what
their bodies say in the charset. -/
theorem exists_parse_iff {requires : List String} :
    (∃ p, parse file (charset.decode octets) = .ok p ∧ p.requires = requires) ↔
      ∃ contents bodies, scan octetSpelling octets = .ok (contents, bodies) ∧
        bodies.map (reference charset) = requires := by
  simp only [parse_decode_eq_ok_iff, scan_eq_ok_iff]
  constructor
  · rintro ⟨p, ⟨m, rfl, rfl⟩, rfl⟩
    refine ⟨_, _, ⟨m, rfl, rfl⟩, ?_⟩
    simp only [Layout.decode, Layout.parsed, List.map_map]
    rfl
  · rintro ⟨contents, bodies, ⟨m, rfl, hm⟩, rfl⟩
    obtain ⟨-, rfl⟩ := Prod.mk.inj hm
    refine ⟨_, ⟨m, rfl, rfl⟩, ?_⟩
    simp only [Layout.decode, Layout.parsed, List.map_map]
    rfl

theorem parse_isOk_iff : (∃ p, parse file (charset.decode octets) = .ok p) ↔
    ∃ found, scan octetSpelling octets = .ok found := by
  constructor
  · rintro ⟨p, hp⟩
    obtain ⟨contents, bodies, hs, -⟩ := exists_parse_iff.mp ⟨p, hp, rfl⟩
    exact ⟨_, hs⟩
  · rintro ⟨⟨contents, bodies⟩, hs⟩
    obtain ⟨p, hp, -⟩ := exists_parse_iff.mpr ⟨contents, bodies, hs, rfl⟩
    exact ⟨p, hp⟩

/-- Two charsets accept the same files and find the same directives in them. Where a body is plain
ASCII, what it names is the same. -/
theorem parse_agrees (file : String) (c d : Charset) (octets : Octets) :
    ((∃ p, parse file (c.decode octets) = .ok p) ↔ ∃ q, parse file (d.decode octets) = .ok q) ∧
      ∀ p q, parse file (c.decode octets) = .ok p → parse file (d.decode octets) = .ok q →
        ∃ contents bodies, scan octetSpelling octets = .ok (contents, bodies) ∧
          p.requires = bodies.map (reference c) ∧ q.requires = bodies.map (reference d) ∧
          p.requires.length = q.requires.length ∧
          ∀ (k : Nat) body, bodies[k]? = some body → (∀ b ∈ body, b.toNat < 0x80) →
            p.requires[k]? = q.requires[k]? := by
  refine ⟨parse_isOk_iff.trans parse_isOk_iff.symm, fun p q hp hq => ?_⟩
  obtain ⟨contents, bodies, hs, hc⟩ := exists_parse_iff.mp ⟨p, hp, rfl⟩
  obtain ⟨contents', bodies', hs', hd⟩ := exists_parse_iff.mp ⟨q, hq, rfl⟩
  cases hs.symm.trans hs'
  refine ⟨contents, bodies, hs, hc.symm, hd.symm, ?_, ?_⟩
  · rw [← hc, ← hd, List.length_map, List.length_map]
  · intro k body hk hascii
    rw [← hc, ← hd, List.getElem?_map, List.getElem?_map, hk, Option.map_some, Option.map_some,
      reference, reference, Charset.decode_congr hascii c d]

/-- A character that has only begun right before an opener, right before a closer and right behind
one. -/
def torn : Octets :=
  0xE2 :: "/*requires a".toList.map octet ++ 0xC3 :: "*/".toList.map octet ++
    0xF0 :: "/*requires b*/".toList.map octet

theorem torn_agrees : ∃ p q, parse "f" (Charset.utf8.decode torn) = .ok p ∧
    parse "f" (Charset.latin1.decode torn) = .ok q ∧ p.requires = ["a\uFFFD", "b"] ∧
    q.requires = ["aÃ", "b"] ∧ p.requires[1]? = q.requires[1]? := by
  have hp : parse "f" (Charset.utf8.decode torn) =
      .ok ⟨['\uFFFD', '\uFFFD'], ["a\uFFFD", "b"]⟩ := by
    decide +kernel
  have hq : parse "f" (Charset.latin1.decode torn) = .ok ⟨['â', 'ð'], ["aÃ", "b"]⟩ := by decide +kernel
  have hs : scan octetSpelling torn = .ok ([0xE2, 0xF0], [[0x20, 0x61, 0xC3], [0x20, 0x62]]) := by
    decide +kernel
  obtain ⟨contents, bodies, hs', -, -, -, hk⟩ :=
    (parse_agrees "f" .utf8 .latin1 torn).2 _ _ hp hq
  cases hs.symm.trans hs'
  exact ⟨_, _, hp, hq, rfl, rfl, hk 1 _ rfl (by simp)⟩

end Directive

end SourceBundle
