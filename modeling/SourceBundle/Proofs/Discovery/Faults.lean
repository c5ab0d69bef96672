import SourceBundle.Proofs.Discovery.Row

/-! # Which fault is reported

A file has at most one fault: it cannot be read, or else leaves a directive open, or else names
something that is no file, and then the first such reference counts. A run reports the fault of
the first file of the row that has one, and succeeds if none has.
-/
namespace SourceBundle

/-- The first of a list to have `Q`, after some that have `P`, is its head or lies behind it. -/
theorem exists_first_cons_iff {α : Type} {P Q : α → Prop} {x : α} {xs : List α} :
    (∃ before y after, x :: xs = before ++ y :: after ∧ (∀ z ∈ before, P z) ∧ Q y) ↔
      Q x ∨ P x ∧ ∃ before y after, xs = before ++ y :: after ∧ (∀ z ∈ before, P z) ∧ Q y := by
  constructor
  · rintro ⟨before, y, after, he, hbefore, hy⟩
    cases before with
    | nil =>
      obtain ⟨rfl, rfl⟩ := List.cons.inj he
      exact Or.inl hy
    | cons z before =>
      obtain ⟨rfl, rfl⟩ := List.cons.inj he
      obtain ⟨hz, hbefore⟩ := List.forall_mem_cons.mp hbefore
      exact Or.inr ⟨hz, before, y, after, rfl, hbefore, hy⟩
  · rintro (hx | ⟨hx, before, y, after, rfl, hbefore, hy⟩)
    · exact ⟨[], x, xs, rfl, List.forall_mem_nil _, hx⟩
    · exact ⟨x :: before, y, after, rfl, List.forall_mem_cons.mpr ⟨hx, hbefore⟩, hy⟩

namespace Workspace

/-- What is wrong with a file, as an error that names it by its canonical path. -/
inductive Faulty (w : Workspace) (charset : Charset) (l : Location) : Error → Prop
  | unreadable {fault : Fault} (hread : w.files.read l = .error fault) :
    Faulty w charset l (.read l.text fault)
  | unclosed {octets : Text.Utf8.Octets} {directive : String}
      (hread : w.files.read l = .ok octets)
      (hparse : Directive.parse l.text (charset.decode octets) =
        .error (.malformedDirective l.text directive)) :
    Faulty w charset l (.malformedDirective l.text directive)
  /-- All references before this one name files. -/
  | missing {octets : Text.Utf8.Octets} {parsed : Directive.Parsed} {before after : List String}
      {reference : String} (hread : w.files.read l = .ok octets)
      (hparse : Directive.parse l.text (charset.decode octets) = .ok parsed)
      (hsplit : parsed.requires = before ++ reference :: after)
      (hbefore : ∀ r ∈ before, w.isFile (Directive.resolve l.parent.text r) = true)
      (hmissing : w.isFile (Directive.resolve l.parent.text reference) = false) :
    Faulty w charset l (.missingDependency (Directive.resolve l.parent.text reference) l.text)

/-- What is wrong with the first file in breadth-first order with which something is wrong. -/
def FirstFault (w : Workspace) (charset : Charset) (starts : List Location) (e : Error) : Prop :=
  ∃ n l, w.nth? charset starts n = some l ∧ w.Faulty charset l e ∧
    ∀ m < n, ∀ k, w.nth? charset starts m = some k → ∀ e', ¬w.Faulty charset k e'

end Workspace

namespace Discovery

variable {w : Workspace} {charset : Charset} {starts : List Location} {entries : List String}
  {r : Registry} {id : SourceId} {source : Source} {references : List String} {e : Error}
  {n : Nat} {a b : State}

/-! ## The fault of one file -/

theorem link_eq_error_iff : (link w source r references).value = .error e ↔
    ∃ before reference after, references = before ++ reference :: after ∧
      (∀ x ∈ before, w.isFile (Directive.resolve source.directory x) = true) ∧
      w.isFile (Directive.resolve source.directory reference) = false ∧
      .missingDependency (Directive.resolve source.directory reference) source.path = e := by
  induction references generalizing r with
  | nil => simp [link]
  | cons reference references ih =>
    rw [exists_first_cons_iff]
    by_cases hf : w.isFile (Directive.resolve source.directory reference) = true
    · obtain ⟨⟨t, id⟩, hget⟩ := get_of_isFile (r := r) hf
      rw [← ih (r := t)]
      simp only [link, hf, hget, if_true]
      cases (link w source t references).value <;> simp [Except.map]
    · simp [link, hf]

theorem parse_eq_error {file : String} {text : List Char}
    (h : Directive.parse file text = .error e) :
    ∃ directive, e = .malformedDirective file directive := by
  unfold Directive.parse at h
  split at h
  · cases h
  · cases h
    exact ⟨_, rfl⟩

/-- What a visit reports depends on the file alone, not on what is registered. -/
theorem visit_eq_error_iff :
    (visit w charset r id source).value = .error e ↔ w.Faulty charset source.location e := by
  constructor
  · intro h
    simp only [visit] at h
    split at h
    · rename_i fault hread
      cases h
      exact .unreadable hread
    · rename_i octets hread
      split at h
      · rename_i e' hparse
        cases h
        obtain ⟨directive, rfl⟩ := parse_eq_error hparse
        exact .unclosed hread hparse
      · rename_i parsed hparse
        split at h
        · rename_i e' hlink
          cases h
          obtain ⟨before, reference, after, hsplit, hbefore, hmissing, rfl⟩ :=
            link_eq_error_iff.mp hlink
          exact .missing hread hparse hsplit hbefore hmissing
        · cases h
  · intro h
    cases h with
    | unreadable hread =>
      simp only [visit, hread]
      rfl
    | unclosed hread hparse =>
      have hparse' : Directive.parse source.path _ = _ := hparse
      simp only [visit, hread, hparse']
    | missing hread hparse hsplit hbefore hmissing =>
      have hparse' : Directive.parse source.path _ = _ := hparse
      have hlink := (link_eq_error_iff (r := r)).mpr ⟨_, _, _, hsplit, hbefore, hmissing, rfl⟩
      simp only [visit, hread, hparse', hlink]
      rfl

-- A visit under any number and with any registry shows what is wrong with a file.
theorem not_legible_iff {l : Location} : ¬w.Legible charset l ↔ ∃ e, w.Faulty charset l e := by
  have hok : (∃ p, (visit w charset .empty 0 { location := l }).value = .ok p) ↔
      w.Legible charset l := visit_isOk_iff
  have herror (e : Error) : (visit w charset .empty 0 { location := l }).value = .error e ↔
      w.Faulty charset l e := visit_eq_error_iff
  simp only [← hok, ← herror]
  cases (visit w charset .empty 0 { location := l }).value <;> simp

theorem faulty_unique {l : Location} {e' : Error} (h : w.Faulty charset l e)
    (h' : w.Faulty charset l e') : e = e' := by
  have hv : (visit w charset .empty 0 { location := l }).value = .error e :=
    visit_eq_error_iff.mpr h
  exact Except.error.inj (hv.symm.trans (visit_eq_error_iff.mpr h'))

theorem firstFault_unique {e' : Error} (h : w.FirstFault charset starts e)
    (h' : w.FirstFault charset starts e') : e = e' := by
  obtain ⟨n, l, hl, he, hfirst⟩ := h
  obtain ⟨n', l', hl', he', hfirst'⟩ := h'
  rcases Nat.lt_trichotomy n n' with hlt | rfl | hgt
  · exact absurd he (hfirst' n hlt l hl e)
  · obtain rfl := Option.some.inj (hl.symm.trans hl')
    exact faulty_unique he he'
  · exact absurd he' (hfirst n' hgt l' hl' e')

/-! ## The fault of a run -/

/-- A run that has read `n` files succeeds if all files of the row are legible, and otherwise stops
at the first that is not. -/
theorem run_cases (h : Along w charset starts n a) :
    (∃ r, (run w charset a).value = .ok r ∧
      ∀ m l, w.nth? charset starts m = some l → w.Legible charset l) ∨
    ∃ e, (run w charset a).value = .error e ∧ w.FirstFault charset starts e := by
  induction a using run_induction generalizing n with
  | done r log =>
    refine Or.inl ⟨r, by rw [run_nil], fun m l hl => ?_⟩
    have hend : w.nth? charset starts n = none := by
      have hrow : r.locations = w.row charset starts n := h.row
      rw [Workspace.nth?, ← hrow, List.getElem?_eq_none_iff, Registry.length_locations]
      exact h.toInOrder.done.1.ge
    rcases Nat.lt_or_ge m n with hm | hm
    · exact h.legible m hm l hl
    · rw [Workspace.nth?_eq_none_of_le hend hm] at hl
      cases hl
  | stuck r id rest log source e hs hu he =>
    obtain ⟨-, hnth⟩ := h.front hs hu
    refine Or.inr ⟨e, run_error hs hu he, n, source.location, hnth, visit_eq_error_iff.mp he, ?_⟩
    intro m hm k hk e' hfault
    exact not_legible_iff.mpr ⟨e', hfault⟩ (h.legible m hm k hk)
  | advance a b ha ih =>
    obtain ⟨m, hm⟩ := ha.along h
    rw [ha.run_eq]
    exact ih hm

theorem run_eq_error_iff (h : Along w charset starts n a) :
    (run w charset a).value = .error e ↔ w.FirstFault charset starts e := by
  rcases run_cases h with ⟨r, hr, hall⟩ | ⟨e', he, hfirst⟩
  · rw [hr]
    refine iff_of_false (by simp) ?_
    rintro ⟨m, l, hl, hfault, -⟩
    exact not_legible_iff.mpr ⟨e, hfault⟩ (hall m l hl)
  · rw [he]
    constructor
    · intro heq
      exact Except.error.inj heq ▸ hfirst
    · intro hfirst'
      rw [firstFault_unique hfirst hfirst']

/-! ## The fault of a discovery -/

/-- With entries that lead somewhere, the first fault in breadth-first order is reported. -/
theorem discover_eq_error_iff (hs : entries.map w.canonical = starts.map .ok) :
    (discover w charset entries).value = .error e ↔ w.FirstFault charset starts e := by
  rw [← run_eq_error_iff (along_begin w charset starts)]
  simp only [discover, enterAll_of_canonical hs, Logged.map]
  cases (run w charset ⟨(Registry.empty.enterEach starts).1, _, #[]⟩).value <;> simp [Except.map]

/-- Entering fails at the first entry that leads nowhere. -/
theorem enterAll_eq_error_iff : enterAll w r entries = .error e ↔
    ∃ before entry after, entries = before ++ entry :: after ∧
      (∀ x ∈ before, ∃ l, w.canonical x = .ok l) ∧
      ∃ fault, w.canonical entry = .error fault ∧ .read entry fault = e := by
  induction entries generalizing r with
  | nil => simp [enterAll]
  | cons entry entries ih =>
    rw [exists_first_cons_iff]
    cases hc : w.canonical entry with
    | ok l =>
      rw [← ih (r := (r.enter l).1)]
      simp only [enterAll, Registry.get, hc]
      cases enterAll w (r.enter l).1 entries <;> simp [Except.map]
    | error fault => simp [enterAll, Registry.get, hc]

/-- An entry that leads nowhere is reported before any file is read. -/
theorem discover_of_unreachable {before after : List String} {entry : String} {fault : Fault}
    (hbefore : ∀ x ∈ before, ∃ l, w.canonical x = .ok l)
    (hentry : w.canonical entry = .error fault) :
    discover w charset (before ++ entry :: after) = ⟨.error (.read entry fault), []⟩ := by
  have henter : enterAll w .empty (before ++ entry :: after) = .error (.read entry fault) :=
    enterAll_eq_error_iff.mpr ⟨before, entry, after, rfl, hbefore, fault, hentry, rfl⟩
  rw [discover, henter]

/-- Reports a file that is missing, cannot be read or leaves a directive open. -/
def OfFile : Error → Prop
  | .missingDependency .. | .malformedDirective .. | .read .. => True
  | _ => False

/-- Discovery never reports a cycle, nor anything else that is not about one file. -/
theorem discover_error (h : (discover w charset entries).value = .error e) : OfFile e := by
  cases henter : enterAll w .empty entries with
  | error e' =>
    rw [discover, henter] at h
    cases h
    obtain ⟨before, entry, after, -, -, fault, -, rfl⟩ := enterAll_eq_error_iff.mp henter
    trivial
  | ok p =>
    obtain ⟨starts, hs, -⟩ := enterAll_eq_enterEach henter
    obtain ⟨n, l, -, hfault, -⟩ := (discover_eq_error_iff hs).mp h
    cases hfault <;> trivial

/-! ## Files within reach -/

theorem reaches_of_finds {l : Location} (h : w.Finds charset entries l) :
    w.Reaches charset entries l := by
  obtain ⟨entry, hentry, start, hc, hl⟩ := h
  refine ⟨entry, hentry, start, hc, Relation.ReflTransGen.mono (fun k m hm => ?_) _ _ hl⟩
  exact (Workspace.exists_of_mem_named hm).1

/-- Where no file that is found is faulty, the references of all of them name files. -/
theorem finds_of_reaches {l : Location}
    (hall : ∀ k, w.Finds charset entries k → w.Legible charset k)
    (h : w.Reaches charset entries l) : w.Finds charset entries l := by
  obtain ⟨entry, hentry, start, hc, hl⟩ := h
  induction hl with
  | refl => exact ⟨entry, hentry, start, hc, .refl⟩
  | tail _ hm ih =>
    have hlegible := hall _ ih
    obtain ⟨entry', hentry', start', hc', hl'⟩ := ih
    refine ⟨entry', hentry', start', hc', hl'.tail ?_⟩
    rw [Workspace.named_eq_targets hlegible]
    exact hm

theorem discover_isError_iff : (∃ e, (discover w charset entries).value = .error e) ↔
    (∃ entry ∈ entries, ∃ fault, w.canonical entry = .error fault) ∨
      ∃ l e, w.Finds charset entries l ∧ w.Faulty charset l e := by
  have herror : (∃ e, (discover w charset entries).value = .error e) ↔
      ¬∃ d, (discover w charset entries).value = .ok d := by
    cases (discover w charset entries).value <;> simp
  have hreach : (∀ l, w.Reaches charset entries l → w.Legible charset l) ↔
      ∀ l, w.Finds charset entries l → w.Legible charset l := by
    constructor
    · intro hall l hl
      exact hall l (reaches_of_finds hl)
    · intro hall l hl
      exact hall l (finds_of_reaches hall hl)
  have hentry (entry : String) : (¬∃ l, w.canonical entry = .ok l) ↔
      ∃ fault, w.canonical entry = .error fault := by
    cases w.canonical entry <;> simp
  rw [herror, discover_isOk_iff, hreach, not_and_or]
  push Not
  simp only [← not_exists, hentry, not_legible_iff, exists_and_left]

/-! ## Entries that are files -/

theorem exists_read_of_isFile {path : String} (h : w.isFile path = true) :
    ∃ l octets, w.canonical path = .ok l ∧ w.files.read l = .ok octets := by
  obtain ⟨octets, he⟩ := Workspace.isFile_iff.mp h
  obtain ⟨-, l, hc, hl⟩ := Workspace.entry?_eq_some_iff.mp he
  exact ⟨l, octets, hc, by rw [FileSystem.read, hl]⟩

/-- Entries that are files cannot fail to be read, nor can what is found from them. -/
theorem exists_read_of_finds (hentries : ∀ entry ∈ entries, w.isFile entry = true) {l : Location}
    (h : w.Finds charset entries l) : ∃ octets, w.files.read l = .ok octets := by
  obtain ⟨entry, hentry, start, hc, hl⟩ := h
  have hpath : ∃ path, w.isFile path = true ∧ w.canonical path = .ok l := by
    rcases Relation.ReflTransGen.cases_tail hl with rfl | ⟨k, -, hk⟩
    · exact ⟨entry, hentries entry hentry, hc⟩
    · exact (Workspace.exists_of_mem_named hk).2
  obtain ⟨path, hfile, hpath⟩ := hpath
  obtain ⟨m, octets, hm, hread⟩ := exists_read_of_isFile hfile
  exact ⟨octets, Except.ok.inj (hm.symm.trans hpath) ▸ hread⟩

theorem not_read_of_isFile (hentries : ∀ entry ∈ entries, w.isFile entry = true)
    (h : (discover w charset entries).value = .error e) :
    (∃ path declaredIn, e = .missingDependency path declaredIn) ∨
      ∃ file directive, e = .malformedDirective file directive := by
  obtain ⟨p, hp⟩ := enterAll_isOk (r := .empty) fun entry he =>
    Workspace.canonical_of_isFile (hentries entry he)
  obtain ⟨starts, hs, -⟩ := enterAll_eq_enterEach hp
  obtain ⟨n, l, hl, hfault, -⟩ := (discover_eq_error_iff hs).mp h
  cases hfault with
  | unreadable hread =>
    obtain ⟨octets, hoctets⟩ := exists_read_of_finds hentries ((Workspace.finds_iff hs).mpr ⟨n, hl⟩)
    cases hread.symm.trans hoctets
  | unclosed => exact Or.inr ⟨_, _, rfl⟩
  | missing => exact Or.inl ⟨_, _, rfl⟩

end Discovery

end SourceBundle
