import Mathlib.Logic.Relation
import Mathlib.Order.Bounds.Basic
import SourceBundle.Discovery
import SourceBundle.Proofs.Registry

/-! # What a file leads to

The directives of a file name other files. Following them is a relation between locations, fixed
by the file system and the charset alone. A record is faithful if it says what its file says.
-/
namespace SourceBundle

namespace Workspace

/-- Where a reference in the file at `l` leads. -/
def target (w : Workspace) (l : Location) (reference : String) : Except Fault Location :=
  w.canonical (Directive.resolve l.parent.text reference)

/-- A file without its directives, and what they name. -/
def parsed? (w : Workspace) (charset : Charset) (l : Location) : Option Directive.Parsed :=
  match w.files.read l with
  | .ok octets => (Directive.parse l.text (charset.decode octets)).toOption
  | .error _ => none

/-- Where the references of a file lead, in the order of declaration, repeats included. -/
def targets (w : Workspace) (charset : Charset) (l : Location) : List Location :=
  ((w.parsed? charset l).elim [] Directive.Parsed.requires).filterMap fun reference =>
    (w.target l reference).toOption

def Requires (w : Workspace) (charset : Charset) (l m : Location) : Prop :=
  m ∈ w.targets charset l

/-- The files that the entries lead to through any number of directives. -/
def Reaches (w : Workspace) (charset : Charset) (entries : List String) (l : Location) : Prop :=
  ∃ entry ∈ entries, ∃ start, w.canonical entry = .ok start ∧
    Relation.ReflTransGen (w.Requires charset) start l

/-- Holds every entry and, with a file, whatever its directives name. -/
def Covers (w : Workspace) (charset : Charset) (entries : List String) (files : Set Location) :
    Prop :=
  (∀ entry ∈ entries, ∀ l, w.canonical entry = .ok l → l ∈ files) ∧
    ∀ l ∈ files, ∀ m, w.Requires charset l m → m ∈ files

theorem isLeast_reaches (w : Workspace) (charset : Charset) (entries : List String) :
    IsLeast {files | w.Covers charset entries files} {l | w.Reaches charset entries l} := by
  constructor
  · constructor
    · intro entry he l hl
      exact ⟨entry, he, l, hl, .refl⟩
    · rintro l ⟨entry, he, start, hs, hl⟩ m hm
      exact ⟨entry, he, start, hs, hl.tail hm⟩
  · rintro files ⟨hentries, hfiles⟩ l ⟨entry, he, start, hs, hl⟩
    induction hl with
    | refl => exact hentries entry he start hs
    | tail _ hm ih => exact hfiles _ ih _ hm

theorem exists_canonical {w : Workspace} {entries : List String} {starts : List Location}
    (h : entries.map w.canonical = starts.map .ok) :
    ∀ entry ∈ entries, ∃ l, w.canonical entry = .ok l := by
  intro entry he
  have hm : w.canonical entry ∈ starts.map .ok := h ▸ List.mem_map_of_mem he
  obtain ⟨l, -, hl⟩ := List.mem_map.mp hm
  exact ⟨l, hl.symm⟩

theorem mem_iff_canonical {w : Workspace} {entries : List String} {starts : List Location}
    (h : entries.map w.canonical = starts.map .ok) {l : Location} :
    l ∈ starts ↔ ∃ entry ∈ entries, w.canonical entry = .ok l := by
  constructor
  · intro hl
    exact List.mem_map.mp (h ▸ List.mem_map_of_mem hl)
  · rintro ⟨entry, he, hl⟩
    have hm : w.canonical entry ∈ starts.map .ok := h ▸ List.mem_map_of_mem he
    obtain ⟨start, hs, hc⟩ := List.mem_map.mp hm
    rw [hl] at hc
    cases hc
    exact hs

end Workspace

theorem filterMap_toOption {α β ε : Type} {f : α → Except ε β} {xs : List α} {ys : List β}
    (h : xs.map f = ys.map .ok) : xs.filterMap (fun x => (f x).toOption) = ys := by
  induction xs generalizing ys with
  | nil => exact (List.map_eq_nil_iff.mp h.symm).symm
  | cons x xs ih =>
    cases ys with
    | nil => cases h
    | cons y ys =>
      obtain ⟨hx, hxs⟩ := List.cons.inj h
      rw [List.filterMap_cons_some (b := y) (by rw [hx]; rfl), ih hxs]

theorem Workspace.targets_eq {w : Workspace} {charset : Charset} {l : Location}
    {octets : Text.Utf8.Octets} {parsed : Directive.Parsed} {targets : List Location}
    (hr : w.files.read l = .ok octets)
    (hp : Directive.parse l.text (charset.decode octets) = .ok parsed)
    (ht : parsed.requires.map (w.target l) = targets.map .ok) : w.targets charset l = targets := by
  have hw : w.parsed? charset l = some parsed := by
    rw [parsed?, hr]
    exact congrArg Except.toOption hp
  rw [Workspace.targets, hw, Option.elim_some, filterMap_toOption ht]

/-- A record that says what its file says: the text without directives and, in the order of
declaration, the numbers of what they name. -/
def Source.Faithful (w : Workspace) (charset : Charset) (r : Registry) (s : Source) : Prop :=
  ∃ octets parsed, ∃ targets : List Location, w.files.read s.location = .ok octets ∧
    Directive.parse s.path (charset.decode octets) = .ok parsed ∧
    s.contents = some parsed.contents ∧
    parsed.requires.map (w.target s.location) = targets.map .ok ∧
    s.dependencies.map r.location? = targets.map some

namespace Source.Faithful

variable {w : Workspace} {charset : Charset} {r t : Registry} {s : Source}

theorem map_dependencies (h : s.Faithful w charset r) :
    s.dependencies.map r.location? = (w.targets charset s.location).map some := by
  obtain ⟨octets, parsed, targets, hr, hp, -, ht, hd⟩ := h
  rw [hd, Workspace.targets_eq hr hp ht]

theorem mono (h : s.Faithful w charset r)
    (ht : ∀ id l, r.location? id = some l → t.location? id = some l) :
    s.Faithful w charset t := by
  obtain ⟨octets, parsed, targets, hr, hp, hc, hq, hd⟩ := h
  refine ⟨octets, parsed, targets, hr, hp, hc, hq, ?_⟩
  rw [← hd]
  apply List.map_congr_left
  intro id hid
  have hm : r.location? id ∈ targets.map some := hd ▸ List.mem_map_of_mem hid
  obtain ⟨l, -, hl⟩ := List.mem_map.mp hm
  rw [← hl, ht id l hl.symm]

end Source.Faithful

end SourceBundle
