import Mathlib.Data.Bool.AllAny
import SourceBundle.Proofs.Charset
import SourceBundle.Proofs.Directive.Parse

/-! # Directives in octets

Directives are spelled in ASCII characters. So the octets of a file are laid out as its text is,
whatever its charset.
-/
namespace SourceBundle.Directive

open Text.Utf8 (Octets IsAscii octet)

/-- The spelling in files that are not decoded yet. -/
def octetSpelling : Spelling UInt8 where
  opener := spelling.opener.map octet
  closer := spelling.closer.map octet
  guard := octet spelling.guard
  opens := by simp [spelling.opens]

theorem regular_octetSpelling : octetSpelling.Regular where
  opener := ⟨octet '/', "*requires".toList.map octet, rfl, by decide⟩
  closer := ⟨octet '*', [octet '/'], rfl, by decide⟩
  free := by decide

theorem ascii_opener : ∀ c ∈ spelling.opener, IsAscii c :=
  List.all_iff_forall_prop.mp (by decide)

theorem ascii_closer : ∀ c ∈ spelling.closer, IsAscii c :=
  List.all_iff_forall_prop.mp (by decide)

theorem ascii_guard : IsAscii spelling.guard := by decide

variable {charset : Charset} {piece tail : Octets}

/-! ## The layout of the text -/

theorem Plain.decode (h : Plain octetSpelling piece) (charset : Charset) :
    Plain spelling (charset.decode piece) := by
  intro before after he
  obtain ⟨front, rest, rfl, rfl, -⟩ :=
    Charset.exists_of_decode_append_word ascii_opener spelling.opens he
  exact (Charset.getLast?_decode ascii_guard).mpr (h front rest rfl)

def Part.decode (charset : Charset) (p : Part octetSpelling) : Part spelling where
  piece := charset.decode p.piece
  body := charset.decode p.body
  plain := p.plain.decode charset
  unguarded h := p.unguarded ((Charset.getLast?_decode ascii_guard).mp h)
  inside h := p.inside
    ((Charset.infix_decode_iff ascii_closer regular_spelling.closer.ne_nil).mp h)

def Layout.decode (charset : Charset) (m : Layout octetSpelling) : Layout spelling :=
  ⟨m.parts.map (Part.decode charset), charset.decode m.last, m.plain.decode charset⟩

def Unclosed.decode (charset : Charset) (u : Unclosed octetSpelling) : Unclosed spelling :=
  ⟨u.parts.map (Part.decode charset), u.rest.decode charset⟩

theorem Part.decode_opened (charset : Charset) (p : Part octetSpelling) :
    charset.decode p.opened = (p.decode charset).opened :=
  Charset.decode_append_word charset ascii_opener spelling.opens p.piece p.body

theorem decode_joined_append (charset : Charset) (parts : List (Part octetSpelling))
    (tail : Octets) : charset.decode (joined parts ++ tail) =
      joined (parts.map (Part.decode charset)) ++ charset.decode tail := by
  induction parts with
  | nil => rfl
  | cons p parts ih =>
    have hcloser := Charset.decode_append_word charset ascii_closer
      regular_spelling.closer.ne_nil p.opened (joined parts ++ tail)
    calc
      charset.decode (joined (p :: parts) ++ tail) =
          charset.decode (p.opened ++ octetSpelling.closer ++ (joined parts ++ tail)) := by
        rw [joined_cons]
        simp only [List.append_assoc]
      _ = (p.decode charset).opened ++ spelling.closer ++
          charset.decode (joined parts ++ tail) := by
        rw [← p.decode_opened charset]
        exact hcloser
      _ = joined ((p :: parts).map (Part.decode charset)) ++ charset.decode tail := by
        rw [ih, List.map_cons, joined_cons]
        simp only [List.append_assoc]

theorem Layout.text_decode (charset : Charset) (m : Layout octetSpelling) :
    (m.decode charset).text = charset.decode m.text :=
  (decode_joined_append charset m.parts m.last).symm

theorem Unclosed.text_decode (charset : Charset) (u : Unclosed octetSpelling) :
    (u.decode charset).text = charset.decode u.text := by
  rw [text, text, decode_joined_append, Part.decode_opened]
  rfl

/-- A text is accepted if and only if the directives in its octets are all closed. -/
theorem parse_decode_eq_ok_iff (file : String) (charset : Charset) (octets : Octets)
    (parsed : Parsed) : parse file (charset.decode octets) = .ok parsed ↔
      ∃ m : Layout octetSpelling, m.text = octets ∧ (m.decode charset).parsed = parsed := by
  constructor
  · intro h
    obtain ⟨parts, tail, rfl, hplain | ⟨p, rfl⟩⟩ := exists_joined regular_octetSpelling octets
    · refine ⟨⟨parts, tail, hplain⟩, rfl, Except.ok.inj ((parse_layout file _).symm.trans ?_)⟩
      rw [Layout.text_decode]
      exact h
    · obtain ⟨line, -, he⟩ := parse_unclosed file (Unclosed.decode charset ⟨parts, p⟩)
      rw [Unclosed.text_decode] at he
      cases he.symm.trans h
  · rintro ⟨m, rfl, rfl⟩
    rw [← Layout.text_decode]
    exact parse_layout file _

/-! ## Octets without their directives -/

/-- The octets without the directives in them; none if a directive is not closed. -/
def strip (octets : Octets) : Octets := (scan octetSpelling octets).toOption.elim [] Prod.fst

theorem strip_text (m : Layout octetSpelling) :
    strip m.text = m.parts.flatMap Part.piece ++ m.last := by
  rw [strip, scan_layout regular_octetSpelling]
  rfl

theorem takes_joined {parts : List (Part octetSpelling)}
    (h : charset.Takes (joined parts ++ tail)) :
    (∀ p ∈ parts, charset.Takes p.piece) ∧ charset.Takes tail := by
  induction parts with
  | nil => exact ⟨by simp, h⟩
  | cons p parts ih =>
    have ht : joined (p :: parts) ++ tail = p.piece ++ octetSpelling.opener ++
        (p.body ++ octetSpelling.closer ++ (joined parts ++ tail)) := by
      rw [joined_cons, Part.opened]
      simp only [List.append_assoc]
    rw [ht] at h
    obtain ⟨hpiece, hrest⟩ := h.cut_word ascii_opener spelling.opens
    obtain ⟨hparts, htail⟩ :=
      ih (hrest.cut_word ascii_closer regular_spelling.closer.ne_nil).2
    exact ⟨List.forall_mem_cons.mpr ⟨hpiece, hparts⟩, htail⟩

theorem encode_pieces {parts : List (Part octetSpelling)}
    (h : ∀ p ∈ parts, charset.Takes p.piece) :
    charset.encode ((parts.map (Part.decode charset)).flatMap Part.piece) =
      charset.masked (parts.flatMap Part.piece) := by
  induction parts with
  | nil => exact charset.encode_nil.trans charset.masked_nil.symm
  | cons p parts ih =>
    obtain ⟨hp, hparts⟩ := List.forall_mem_cons.mp h
    rw [List.map_cons, List.flatMap_cons, List.flatMap_cons, Charset.encode_append,
      Charset.masked_append, ih hparts]
    exact congrArg (· ++ _) (Charset.encode_decode hp)

/-- The pieces come out as they went in. -/
theorem encode_contents {m : Layout octetSpelling} (h : charset.Takes m.text) :
    charset.encode (m.decode charset).parsed.contents = charset.masked (strip m.text) := by
  obtain ⟨hparts, hlast⟩ := takes_joined h
  rw [strip_text, Charset.masked_append, Layout.parsed, Charset.encode_append]
  exact congrArg₂ (· ++ ·) (encode_pieces hparts) (Charset.encode_decode hlast)

end SourceBundle.Directive
