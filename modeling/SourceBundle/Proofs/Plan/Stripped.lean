import SourceBundle.Proofs.Directive.Octets
import SourceBundle.Proofs.Plan.Emitted

/-! # Everything but the directives survives

What a run writes for a file can be said of the file's octets alone. They need not be decoded for
that: their directives are left out, and US-ASCII masks the octets that it lacks.
-/
namespace SourceBundle

open Text.Utf8 (Octets)

/-- The octets of a file without its directives. -/
def Workspace.stripped (w : Workspace) (l : Location) : Octets :=
  (w.files.read l).toOption.elim [] Directive.strip

variable {w : Workspace} {charset : Charset} {o : Options} {p : Plan} {r : Registry}
  {entries : List String}

theorem Directive.encode_parsed {file : String} {octets : Octets} {parsed : Directive.Parsed}
    (hp : parse file (charset.decode octets) = .ok parsed) (ht : charset.Takes octets) :
    charset.encode parsed.contents = charset.masked (strip octets) := by
  obtain ⟨m, rfl, rfl⟩ := (parse_decode_eq_ok_iff file charset octets parsed).mp hp
  exact encode_contents ht

theorem Source.Faithful.encode_contents {s : Source} (h : s.Faithful w charset r)
    (ht : ∀ octets, w.files.read s.location = .ok octets → charset.Takes octets) :
    charset.encode (s.contents.getD []) = charset.masked (w.stripped s.location) := by
  obtain ⟨octets, parsed, -, hread, hparse, hcontents, -⟩ := h
  rw [hcontents, Workspace.stripped, hread]
  exact Directive.encode_parsed hparse (ht octets hread)

namespace Plan

theorem encode_output {sources : List Source} (ho : o.separator = false)
    (hf : ∀ s ∈ sources, s.Faithful w o.charset r)
    (ht : ∀ s ∈ sources, ∀ octets, w.files.read s.location = .ok octets → o.charset.Takes octets) :
    o.charset.encode (Emission.output o sources) =
      sources.flatMap fun s => o.charset.masked (w.stripped s.location) := by
  induction sources with
  | nil => exact o.charset.encode_nil
  | cons s sources ih =>
    obtain ⟨hs, hsources⟩ := List.forall_mem_cons.mp hf
    obtain ⟨hts, htsources⟩ := List.forall_mem_cons.mp ht
    have htexts : (Emission.texts o s).flatten = s.contents.getD [] := by
      simp [Emission.texts, ho]
    rw [Emission.output_cons, htexts, Charset.encode_append, hs.encode_contents hts,
      ih hsources htsources, List.flatMap_cons]

/-- A run that writes the octets of the planned files, in order and without their directives, as
far as a sink takes them. -/
structure Preserved (w : Workspace) (o : Options) (p : Plan) (run : Sink → Emission.Outcome) :
    Prop where
  read : ∀ s ∈ p.sources, ∃ octets, w.files.read s.location = .ok octets
  delivered :
    (∀ s ∈ p.sources, ∀ octets, w.files.read s.location = .ok octets → o.charset.Takes octets) →
      ∀ sink, Sink.Delivered sink
        (p.sources.flatMap fun s => o.charset.masked (w.stripped s.location))
        (run sink).result (run sink).sink

theorem Planned.preserved {starts : List Location} {planned : Logged (Except Error Plan)}
    (hp : Planned w o starts p) (hv : planned.value = .ok p) (ho : o.separator = false) :
    Preserved w o p (carryOut planned) := by
  have hf : ∀ s ∈ p.sources, s.Faithful w o.charset p.registry := by
    intro s hs
    obtain ⟨id, -, hid⟩ := List.mem_filterMap.mp hs
    exact hp.complete.faithful s (List.mem_of_getElem? hid)
  refine ⟨fun s hs => ?_, fun ht sink => ?_⟩
  · obtain ⟨octets, -, -, hread, -⟩ := hf s hs
    exact ⟨octets, hread⟩
  · have hd := Emission.delivered_emit o sink p.sources
    rw [encode_output ho hf ht] at hd
    simp only [carryOut, hv, writeTo, hp.options]
    exact hd

/-- A file that is accepted keeps all but its directives, octet for octet, when its text is written
in the charset in which it was read, and so does the output of a run without separators. The
octets must be valid if the charset is UTF-8; US-ASCII masks those that it lacks. -/
theorem octets_preserved :
    (∀ (charset : Charset) (file : String) (octets : Octets) (parsed : Directive.Parsed),
      Directive.parse file (charset.decode octets) = .ok parsed →
        (∃ m : Directive.Layout Directive.octetSpelling, m.text = octets ∧
          (∀ n : Directive.Layout Directive.octetSpelling, n.text = octets → n = m) ∧
          Directive.strip octets = m.parts.flatMap Directive.Part.piece ++ m.last) ∧
        (charset.Takes octets →
          charset.encode parsed.contents = charset.masked (Directive.strip octets))) ∧
    ∀ (w : Workspace) (o : Options) (entries : List String) (p : Plan), o.separator = false →
      ((plan w o entries).value = .ok p → Preserved w o p (combine w o entries)) ∧
      ((planPaths w o entries).value = .ok p → Preserved w o p (combinePaths w o entries)) := by
  refine ⟨fun charset file octets parsed h => ⟨?_, Directive.encode_parsed h⟩,
    fun w o entries p ho => ⟨fun h => ?_, fun h => ?_⟩⟩
  · obtain ⟨m, rfl, -⟩ := (Directive.parse_decode_eq_ok_iff file charset octets parsed).mp h
    exact ⟨m, rfl, fun n hn => Directive.Layout.text_inj Directive.regular_octetSpelling hn,
      Directive.strip_text m⟩
  · obtain ⟨starts, -, hp⟩ := plan_planned h
    exact hp.preserved h ho
  · have hkept : (plan w o (Discovery.filterEntries w entries).value).value = .ok p := h
    obtain ⟨starts, -, hp⟩ := plan_planned hkept
    exact hp.preserved h ho

/-- A Latin-1 text with an accent in each piece and in the body. -/
def accented : Octets := [0xE9] ++ Text.Utf8.encode "/*requires ".toList ++ [0xE8] ++
  Text.Utf8.encode "*/".toList ++ [0xEA]

theorem accented_preserved :
    Directive.parse "f" (Charset.latin1.decode accented) = .ok ⟨['é', 'ê'], ["è"]⟩ ∧
    Charset.latin1.encode ['é', 'ê'] = Directive.strip accented ∧
    (plan Discovery.letters {} ["a"]).value = .ok lettersPlan ∧
    (combine Discovery.letters {} ["a"] {}).sink.received =
      lettersPlan.sources.flatMap fun s => Discovery.letters.stripped s.location := by
  obtain ⟨htext, hplan⟩ := octets_preserved
  have hparse : Directive.parse "f" (Charset.latin1.decode accented) =
      .ok ⟨['é', 'ê'], ["è"]⟩ := by
    cbv
  have hvalid : ∀ s ∈ lettersPlan.sources, ∀ octets,
      Discovery.letters.files.read s.location = .ok octets → Charset.utf8.Takes octets := by
    intro s hs octets hread _
    have hs : s ∈ [Discovery.recordC, Discovery.recordB, Discovery.recordA] := hs
    simp only [List.mem_cons, List.not_mem_nil, or_false] at hs
    rcases hs with rfl | rfl | rfl
    · exact ⟨"z".toList, Except.ok.inj hread⟩
    · exact ⟨"/*requires c*/y".toList, Except.ok.inj hread⟩
    · exact ⟨"/*requires c*//*requires b*//*requires a*/x".toList, Except.ok.inj hread⟩
  have hletters := (hplan Discovery.letters {} ["a"] lettersPlan rfl).1 plan_letters
  refine ⟨hparse, (htext .latin1 "f" accented _ hparse).2 ?_, plan_letters, ?_⟩
  · rintro ⟨⟩
  · exact (hletters.delivered hvalid {}).received

end Plan

end SourceBundle
