import SourceBundle.Proofs.Discovery.Agreement

/-! # The current directory

An absolute path leads to one place, whatever directory is the current one. A reference is looked
up at an absolute path unless it starts with a backslash. One that does is taken as written, and
the file system does not take it for absolute.
-/
namespace SourceBundle

variable {path directory : String}

theorem Path.isAbsolute_iff : Path.isAbsolute path = true ↔ path.toList.head? = some '/' :=
  decide_eq_true_iff

theorem Path.isAbsolute_append (h : Path.isAbsolute directory = true) (text : String) :
    Path.isAbsolute (directory ++ text) = true := by
  rw [isAbsolute_iff] at *
  rw [String.toList_append, List.head?_append, h, Option.some_or]

theorem Path.isAbsolute_join (h : Path.isAbsolute directory = true) :
    Path.isAbsolute (Path.join directory path) = true := by
  unfold join
  simp only
  split_ifs with hpath
  · exact hpath
  · exact isAbsolute_append h path
  · exact isAbsolute_append (isAbsolute_append h "/") path

theorem Location.isAbsolute_text (l : Location) : Path.isAbsolute l.text = true := by
  cases l with
  | nil => rfl
  | cons name l =>
    rw [text, if_neg (List.cons_ne_nil name l), List.map_cons, String.join_cons]
    exact Path.isAbsolute_append (Path.isAbsolute_append rfl name) _

/-- Seen from an absolute directory, only a backslash keeps a reference from being looked up at an
absolute path. -/
theorem Directive.isAbsolute_resolve_iff (h : Path.isAbsolute directory = true)
    (reference : String) : Path.isAbsolute (resolve directory reference) = true ↔
      reference.toList.head? ≠ some '\\' := by
  unfold resolve
  split
  · rename_i rest hr
    rw [Path.isAbsolute_iff, hr]
    simp
  · rename_i rest hr
    rw [Path.isAbsolute_iff, hr]
    simp
  · rename_i hslash hback
    refine iff_of_true (Path.isAbsolute_join h) fun hhead => ?_
    obtain ⟨rest, hr⟩ := List.head?_eq_some_iff.mp hhead
    exact hback rest hr

namespace Workspace

variable {fs : FileSystem} {charset : Charset} {entries : List String}

theorem canonical_of_isAbsolute (h : Path.isAbsolute path = true) (c d : Location) :
    canonical ⟨fs, c⟩ path = canonical ⟨fs, d⟩ path := by
  simp only [canonical, FileSystem.origin, if_pos h]

theorem isFile_congr {w v : Workspace} (hfiles : w.files = v.files)
    (h : w.canonical path = v.canonical path) : w.isFile path = v.isFile path := by
  simp only [isFile, entry?, place, hfiles, h]

theorem agreesOn_of_isAbsolute (h : Path.isAbsolute path = true) (c d : Location) :
    AgreesOn ⟨fs, c⟩ ⟨fs, d⟩ path := by
  have hc : canonical ⟨fs, c⟩ path = canonical ⟨fs, d⟩ path := canonical_of_isAbsolute h c d
  exact ⟨hc, isFile_congr rfl hc⟩

/-- No file within reach names another by a reference that starts with a backslash. -/
def Rooted (w : Workspace) (charset : Charset) (entries : List String) : Prop :=
  ∀ l, w.Reaches charset entries l → ∀ parsed, w.parsed? charset l = some parsed →
    ∀ reference ∈ parsed.requires, reference.toList.head? ≠ some '\\'

theorem rooted_iff {w : Workspace} : w.Rooted charset entries ↔
    ∀ l, w.Reaches charset entries l → ∀ parsed, w.parsed? charset l = some parsed →
      ∀ reference ∈ parsed.requires,
        Path.isAbsolute (Directive.resolve l.parent.text reference) = true := by
  unfold Rooted
  refine forall₂_congr fun l _ => forall₂_congr fun parsed _ => forall₂_congr fun reference _ => ?_
  exact (Directive.isAbsolute_resolve_iff l.parent.isAbsolute_text reference).symm

theorem agrees_of_rooted {c : Location} (he : ∀ entry ∈ entries, Path.isAbsolute entry = true)
    (h : Rooted ⟨fs, c⟩ charset entries) (d : Location) :
    Agrees ⟨fs, c⟩ ⟨fs, d⟩ charset entries where
  starts entry hm := canonical_of_isAbsolute (he entry hm) c d
  files _ _ := rfl
  references l hl parsed hp reference hm :=
    agreesOn_of_isAbsolute (rooted_iff.mp h l hl parsed hp reference hm) c d

end Workspace

namespace Discovery

/-- With absolute entries, discovery is the same in every current directory if no reference within
reach starts with a backslash, which is to say if each is looked up at an absolute path. -/
theorem discover_current (fs : FileSystem) (c d : Location) (charset : Charset)
    (entries : List String) (he : ∀ entry ∈ entries, Path.isAbsolute entry = true) :
    (Workspace.Rooted ⟨fs, c⟩ charset entries →
      discover ⟨fs, c⟩ charset entries = discover ⟨fs, d⟩ charset entries) ∧
    (Workspace.Rooted ⟨fs, c⟩ charset entries ↔
      ∀ l, Workspace.Reaches ⟨fs, c⟩ charset entries l →
        ∀ parsed, Workspace.parsed? ⟨fs, c⟩ charset l = some parsed →
          ∀ reference ∈ parsed.requires,
            Path.isAbsolute (Directive.resolve l.parent.text reference) = true) :=
  ⟨fun h => discover_eq_of_agrees (Workspace.agrees_of_rooted he h d), Workspace.rooted_iff⟩

/-! ## A reference with a backslash in front -/

/-- Two files that each name one next to them, the second by a name with a backslash in front, and
a directory. -/
def backslashed : FileSystem := ⟨[
  (["a"], .file (Text.Utf8.encode "/*requires b*/x".toList)),
  (["b"], .file (Text.Utf8.encode "y".toList)),
  (["c"], .file (Text.Utf8.encode "/*requires \\d*/z".toList)),
  (["\\d"], .file (Text.Utf8.encode "w".toList)),
  (["sub"], .directory)]⟩

theorem backslashed_current : (∀ entry ∈ ["/a"], Path.isAbsolute entry = true) ∧
    Workspace.Rooted ⟨backslashed, []⟩ .utf8 ["/a"] ∧
    discover ⟨backslashed, []⟩ .utf8 ["/a"] = discover ⟨backslashed, ["sub"]⟩ .utf8 ["/a"] := by
  have habs : ∀ entry ∈ ["/a"], Path.isAbsolute entry = true := by simp [Path.isAbsolute]
  have hstart : Workspace.canonical ⟨backslashed, []⟩ "/a" = .ok ["a"] := by cbv
  have hone : Workspace.targets ⟨backslashed, []⟩ .utf8 ["a"] = [["b"]] := by cbv
  have htwo : Workspace.targets ⟨backslashed, []⟩ .utf8 ["b"] = [] := by cbv
  have hcovers : Workspace.Covers ⟨backslashed, []⟩ .utf8 ["/a"] {["a"], ["b"]} := by
    refine ⟨?_, ?_⟩
    · intro entry hm l hl
      obtain rfl := List.mem_singleton.mp hm
      rw [hstart] at hl
      cases hl
      exact Or.inl rfl
    · rintro l (rfl | rfl) m hm
      · exact Or.inr (List.mem_singleton.mp (hone ▸ hm))
      · have hm : m ∈ Workspace.targets ⟨backslashed, []⟩ .utf8 ["b"] := hm
        rw [htwo] at hm
        cases hm
  have hrooted : Workspace.Rooted ⟨backslashed, []⟩ .utf8 ["/a"] := by
    intro l hl parsed hp reference hm
    have hfirst : Workspace.parsed? ⟨backslashed, []⟩ .utf8 ["a"] = some ⟨['x'], ["b"]⟩ := by cbv
    have hsecond : Workspace.parsed? ⟨backslashed, []⟩ .utf8 ["b"] = some ⟨['y'], []⟩ := by cbv
    rcases (Workspace.isLeast_reaches ⟨backslashed, []⟩ .utf8 ["/a"]).2 hcovers hl with rfl | rfl
    · rw [hfirst] at hp
      cases hp
      obtain rfl := List.mem_singleton.mp hm
      decide
    · rw [hsecond] at hp
      cases hp
      cases hm
  exact ⟨habs, hrooted, (discover_current backslashed [] ["sub"] .utf8 ["/a"] habs).1 hrooted⟩

/-- The registry with the one entry. -/
def backslashedEntered : Registry := ⟨[{ location := ["c"] }], by decide⟩

/-- The registry when the entry has been read. -/
def backslashedLinked : Registry := ⟨[⟨["c"], some ['z'], [1]⟩, { location := ["\\d"] }], by decide⟩

theorem discover_inside : ∃ d, (discover ⟨backslashed, []⟩ .utf8 ["/c"]).value = .ok d := by
  have hentries : enterAll ⟨backslashed, []⟩ .empty ["/c"] = .ok (backslashedEntered, [0]) := by cbv
  have hc : (visit ⟨backslashed, []⟩ .utf8 backslashedEntered 0 { location := ["c"] }).value =
      .ok (backslashedLinked, [1]) := by
    cbv
  have hd : (visit ⟨backslashed, []⟩ .utf8 backslashedLinked 1 { location := ["\\d"] }).value =
      .ok ((backslashedLinked.complete 1 ['w'] []).1, []) := by
    cbv
  exact ⟨_, discover_of_advances hentries <| .head (.read _ 0 [] _ _ _ _ rfl rfl hc) <|
    .single (.read _ 1 [] _ _ _ _ rfl rfl hd)⟩

theorem discover_outside : (discover ⟨backslashed, ["sub"]⟩ .utf8 ["/c"]).value =
    .error (.missingDependency "\\d" "/c") := by
  have hentries : enterAll ⟨backslashed, ["sub"]⟩ .empty ["/c"] = .ok (backslashedEntered, [0]) := by cbv
  have hvisit : (visit ⟨backslashed, ["sub"]⟩ .utf8 backslashedEntered 0 { location := ["c"] }).value =
      .error (.missingDependency "\\d" "/c") := by
    cbv
  have hrun : (run ⟨backslashed, ["sub"]⟩ .utf8 ⟨backslashedEntered, [0], #[]⟩).value =
      .error (.missingDependency "\\d" "/c") := run_error rfl rfl hvisit
  unfold discover
  rw [hentries]
  simp only [Logged.map, hrun]
  rfl

/-- A reference that starts with a backslash leads elsewhere from elsewhere. -/
theorem backslash_follows_current :
    ¬∀ (fs : FileSystem) (c d : Location) (charset : Charset) (entries : List String),
      (∀ entry ∈ entries, Path.isAbsolute entry = true) →
        (discover ⟨fs, c⟩ charset entries).value = (discover ⟨fs, d⟩ charset entries).value := by
  intro h
  have habs : ∀ entry ∈ ["/c"], Path.isAbsolute entry = true := by simp [Path.isAbsolute]
  have heq := h backslashed [] ["sub"] .utf8 ["/c"] habs
  obtain ⟨d, hd⟩ := discover_inside
  rw [discover_outside, hd] at heq
  cases heq

end Discovery

end SourceBundle
