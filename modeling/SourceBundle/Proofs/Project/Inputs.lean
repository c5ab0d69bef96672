import Mathlib.Data.Set.List
import SourceBundle.Project.Inputs
import SourceBundle.Proofs.Glob.Lawful

/-! # The files that an input of a project stands for

In a directory whose path can stand in a pattern for itself, an input with a wildcard stands for the
files below the directory that it matches. This is derived from what an expander promises of
patterns; the directory comes into it as plain steps in front of the components of the input.
-/
namespace SourceBundle.Project

open Glob

variable {L : Language} {w : Workspace} {p : Project} {input : String} {found : List (List String)}

/-- The components of an input. -/
def parts (input : String) : List String := (components input.toList).map String.ofList

/-- The input is relative, has a wildcard and can be read; each of its components names something
other than `.` and `..`, and only the last may match these. -/
structure Asks (L : Language) (input : String) : Prop where
  relative : Path.isAbsolute input = false
  wildcard : hasWildcard input = true
  valid : L.Valid input
  named : Location.Named (parts input)
  dotless : ∀ component ∈ (parts input).dropLast, L.Dotless component

/-- The paths that stand for the places found below a directory, or the input as it is written in
the directory where none is found. -/
def contribution (directory input : String) (found : List (List String)) : List String :=
  if found = [] then [Path.join directory input] else found.map (below (written directory))

/-- Below two paths lie files under the same names. -/
def SameFiles (w w' : Workspace) (path path' : String) : Prop :=
  ∀ names, Location.Named names → w'.isFile (below path' names) = w.isFile (below path names)

section

variable [Expander]

/-- The places found for an input are those of the files below the directory that it matches, in
the order of their names, and the paths that lead there from the directory are contributed. -/
structure Contributes (L : Language) (w : Workspace) (p : Project) (input : String)
    (found : List (List String)) : Prop where
  result : resolveInput w p input = .ok (contribution p.baseDirectory input found)
  files : ∀ names, names ∈ found ↔ Location.Named names ∧ L.Goes (parts input) names ∧
    input.toList.getLast? ≠ some '/' ∧ w.isFile (below (written p.baseDirectory) names) = true
  sorted : Tidy isDepth (parts input) → found.Pairwise (· < ·)

/-- What is contributed leads where the directory and the names lead. Under another directory with
the same files, the same is found, and the paths differ by the directory only. -/
structure Resolves (L : Language) (w : Workspace) (p : Project) (input : String)
    (found : List (List String)) : Prop extends Contributes L w p input found where
  placed : ∀ names ∈ found, w.canonical (below (written p.baseDirectory) names) =
    w.canonical (Path.join p.baseDirectory ("/".intercalate names))
  renamed : ∀ (w' : Workspace) (p' : Project), w'.files.Proper → Verbatim p'.baseDirectory →
    SameFiles w w' (written p.baseDirectory) (written p'.baseDirectory) →
      ∃ found', resolveInput w' p' input = .ok (contribution p'.baseDirectory input found') ∧
        (∀ names, names ∈ found' ↔ names ∈ found) ∧
        (Tidy isDepth (parts input) → found' = found)

omit [Expander] in
theorem Asks.toList_ne_nil (hi : Asks L input) : input.toList ≠ [] := by
  intro hnil
  have hwildcard := hi.wildcard
  rw [hasWildcard, hnil] at hwildcard
  cases hwildcard

omit [Expander] in
/-- In a directory that stands for itself, an input is a pattern with the steps to the directory in
front. -/
theorem Asks.regular {directory : String} (hi : Asks L input) (hd : Verbatim directory) :
    L.Regular (Path.join directory input) (steps directory) (parts input) where
  split := by
    rw [components_join hi.relative, List.map_append]
    rfl
  plain step hm := by
    obtain ⟨piece, hp, rfl⟩ := List.mem_map.mp hm
    rw [String.toList_ofList]
    exact (plain_body (plain_join_empty hd.plain)).components hp
  lasting := by
    have hroot : root (Path.join directory input) = root directory := by
      rw [root, root, Path.isAbsolute_join_relative hi.relative]
    exact hroot ▸ hd.lasting
  ne_nil := by simpa [parts] using components_ne_nil hi.toList_ne_nil
  named := hi.named
  dotless := hi.dotless

theorem Asks.valid_join (hL : Laws L) {directory : String} (hi : Asks L input)
    (hd : Verbatim directory) : L.Valid (Path.join directory input) := by
  have hsplit : Path.join directory input = Path.join directory "" ++ input := by
    rw [← String.toList_inj, String.toList_append, Path.toList_join hi.relative]
  rw [hsplit]
  rcases Path.join_empty_fresh directory with hempty | hslash
  · rw [String.toList_eq_nil_iff.mp hempty, String.empty_append]
    exact hi.valid
  · exact hL.front _ _ (plain_join_empty hd.plain) hslash hi.relative hi.valid

/-- Where the pattern is expanded without a fault, the files among its paths are contributed, or the
input as it stands. -/
theorem resolveInput_of_expand {paths : List String} (hwildcard : hasWildcard input = true)
    (he : Expander.expand w (Path.join p.baseDirectory input) = .ok (paths.map .ok)) :
    resolveInput w p input = .ok (if paths.filter (w.isFile ·) = [] then
      [Path.join p.baseDirectory input] else paths.filter (w.isFile ·)) := by
  have hmap : ∀ paths : List String,
      (paths.map .ok).mapM (Except.mapError Error.io) = .ok paths := by
    intro paths
    induction paths with
    | nil => rfl
    | cons path paths ih =>
      rw [List.map_cons, List.mapM_cons, ih]
      rfl
  unfold resolveInput
  dsimp only
  rw [if_pos hwildcard, he]
  dsimp only
  rw [hmap]
  simp only [bind, Except.bind, pure, Except.pure, List.isEmpty_iff]

omit [Expander] in
theorem lt_of_append_lt {front names names' : List String} (h : front ++ names < front ++ names') :
    names < names' := by
  induction front with
  | nil => exact h
  | cons step front ih =>
    rcases List.cons_lt_cons_iff.mp h with hlt | ⟨-, h⟩
    · exact absurd hlt (String.lt_irrefl step)
    · exact ih h

/-- From the places that the pattern finds, the steps to the directory are taken off. -/
theorem contributes_below (hL : Laws L) (hw : w.files.Proper) (hd : Verbatim p.baseDirectory)
    (hi : Asks L input) : ∃ found, Contributes L w p input found := by
  have hregular := hi.regular hd
  obtain ⟨paths, he, hfinds⟩ := hL.finds w _ hw (hi.valid_join hL hd)
  obtain ⟨places, hplaces⟩ := hfinds _ _ hregular
  have hroot : root (Path.join p.baseDirectory input) = root p.baseDirectory := by
    rw [root, root, Path.isAbsolute_join_relative hi.relative]
  have hlast : (Path.join p.baseDirectory input).toList.getLast? = input.toList.getLast? := by
    rw [Path.toList_join hi.relative, List.getLast?_append_of_ne_nil _ hi.toList_ne_nil]
  have hmem := hplaces.mem_iff
  simp only [hL.literal.goes_append_iff hregular.plain, hroot, hlast] at hmem
  have hrange : places ∈ Set.range (List.map (steps p.baseDirectory ++ ·)) := by
    rw [Set.range_list_map]
    intro names hm
    obtain ⟨more, rfl, -⟩ := ((hmem names).mp hm).1
    exact ⟨more, rfl⟩
  obtain ⟨found, rfl⟩ := hrange
  refine ⟨found, ?_, fun names => ?_, fun ht => ?_⟩
  · have hpaths : paths.filter (w.isFile ·) = found.map (below (written p.baseDirectory)) := by
      rw [hplaces.paths, hroot, List.map_map]
      exact List.map_congr_left fun names _ => below_append _ _ _
    rw [resolveInput_of_expand hi.wildcard he, hpaths, contribution]
    simp only [List.map_eq_nil_iff]
  · have hnames := hmem (steps p.baseDirectory ++ names)
    rw [List.mem_map_of_injective (List.append_right_injective _), below_append] at hnames
    rw [hnames]
    constructor
    · rintro ⟨⟨more, heq, hgoes⟩, hrest⟩
      obtain rfl := List.append_cancel_left heq
      exact ⟨hL.literal.named_of_goes hi.named hgoes, hgoes, hrest⟩
    · rintro ⟨-, hgoes, hrest⟩
      exact ⟨⟨names, rfl, hgoes⟩, hrest⟩
  · have htidy : Tidy isDepth (steps p.baseDirectory ++ parts input) :=
      (tidy_append_iff fun step hm => isDepth_of_plain (hregular.plain step hm)).mpr ht
    exact (List.pairwise_map.mp (hplaces.sorted htidy)).imp lt_of_append_lt

/-- An input with a wildcard stands for the files below the directory that it matches. -/
theorem resolves_below (hL : Laws L) (hw : w.files.Proper) (hd : Verbatim p.baseDirectory)
    (hi : Asks L input) : ∃ found, Resolves L w p input found := by
  obtain ⟨found, h⟩ := contributes_below hL hw hd hi
  refine ⟨found, h, fun names hm => ?_, fun w' p' hw' hd' hsame => ?_⟩
  · obtain ⟨hn, hgoes, -, hfile⟩ := (h.files names).mp hm
    obtain ⟨octets, he⟩ := Workspace.isFile_iff.mp hfile
    obtain ⟨-, l, hc, -⟩ := Workspace.entry?_eq_some_iff.mp he
    rw [hc, canonical_below_written hd (hgoes.ne_nil (hi.regular hd).ne_nil) hn hc]
  · obtain ⟨found', h'⟩ := contributes_below hL hw' hd' hi
    have hmem : ∀ names, names ∈ found' ↔ names ∈ found := by
      intro names
      rw [h'.files, h.files]
      exact and_congr_right fun hn => by rw [hsame names hn]
    refine ⟨found', h'.result, hmem, fun ht => ?_⟩
    exact List.Pairwise.eq_of_mem_iff (h'.sorted ht) (h.sorted ht) hmem

end

/-! ## A directory of scripts -/

/-- The pattern for the names of scripts. -/
def script : Pattern := [.anySequence, .char '.', .char 'j', .char 's']

def scripts (directory : String) : Project :=
  ⟨["*.js"], none, none, none, none, directory⟩

def library : Workspace :=
  ⟨⟨[(["lib"], .directory), (["lib", "b.js"], .file []), (["lib", "c.txt"], .file []),
    (["lib", "a"], .directory), (["lib", "a", "a.js"], .file [])]⟩, []⟩

theorem matches_script_iff (name : String) :
    language.Matches "*.js" name ↔ script.accepts name.toList = true := by
  have hparse : Pattern.parse "*.js".toList = .ok script := by decide +kernel
  rw [matches_iff ⟨script, hparse⟩, patternOf_eq hparse, Pattern.accepts_iff]

theorem asks_scripts : Asks language "*.js" where
  relative := by decide
  wildcard := by decide
  valid := ⟨⟨script, by decide +kernel⟩, [script], by decide +kernel⟩
  named := by decide
  dotless component hm := by
    have hparts : (parts "*.js").dropLast = [] := by decide
    rw [hparts] at hm
    cases hm

theorem asks_all_scripts : Asks language "**/*.js" where
  relative := by decide
  wildcard := by decide
  valid := ⟨⟨.anyDepth :: script, by decide +kernel⟩, [[.anyDepth], script], by decide +kernel⟩
  named := by decide
  dotless component hm hhead := by
    have hparts : (parts "**/*.js").dropLast = ["**"] := by decide
    rw [hparts, List.mem_singleton] at hm
    subst hm
    exact absurd hhead (by decide)

theorem library_resolved : Laws language ∧ library.files.Proper ∧ Verbatim "lib" ∧
    Asks language "**/*.js" ∧ ∃ found, Resolves language library (scripts "lib") "**/*.js" found ∧
      ["a", "a.js"] ∈ found ∧ ["b.js"] ∈ found ∧ ["c.txt"] ∉ found := by
  have hw : library.files.Proper := ⟨by decide, by decide⟩
  have hd : Verbatim (scripts "lib").baseDirectory := ⟨by decide, by decide⟩
  obtain ⟨found, h⟩ := resolves_below laws hw hd asks_all_scripts
  have hparts : parts "**/*.js" = ["**", "*.js"] := by decide
  have hscript : ∀ name, Path.IsName name → script.accepts name.toList = true →
      language.Goes ["**", "*.js"] [name] := fun name hn ha =>
    .skip (List.cons_ne_nil _ _) (.name (by decide) ((matches_script_iff name).mpr ha)
      (Or.inr hn) .nil)
  refine ⟨laws, hw, hd, asks_all_scripts, found, h, ?_, ?_, fun hm => ?_⟩
  · have hpath : below (written "lib") ["a", "a.js"] = "lib/a/a.js" := by decide
    have hfile : library.isFile "lib/a/a.js" = true :=
      Workspace.isFile_of_way (by decide) rfl (.place rfl (.place rfl (.place rfl (.here _ _)))) rfl
    exact (h.files _).mpr ⟨by decide, hparts ▸ .deeper (by decide) (hscript "a.js" (by decide)
      (by decide)), by decide, hpath ▸ hfile⟩
  · have hpath : below (written "lib") ["b.js"] = "lib/b.js" := by decide
    have hfile : library.isFile "lib/b.js" = true :=
      Workspace.isFile_of_way (by decide) rfl (.place rfl (.place rfl (.here _ _))) rfl
    exact (h.files _).mpr ⟨by decide, hparts ▸ hscript "b.js" (by decide) (by decide), by decide,
      hpath ▸ hfile⟩
  · obtain ⟨-, hgoes, -⟩ := (h.files _).mp hm
    rw [hparts] at hgoes
    cases hgoes with
    | name hc => exact hc rfl
    | deeper _ hgoes => exact hgoes.ne_nil (List.cons_ne_nil _ _) rfl
    | skip _ hgoes =>
      have hx := hgoes.matches_of_singleton (by decide)
      exact absurd ((matches_script_iff _).mp hx) (by decide)

/-! ## A directory that is read as a pattern -/

def bracketed : Workspace :=
  ⟨⟨[(["d[x]"], .directory), (["d[x]", "a.js"], .file []), (["dx"], .directory),
    (["dx", "b.js"], .file [])]⟩, []⟩

theorem expand_bracketed : expand bracketed "d[x]/*.js" = .ok ["dx/b.js"] := by
  have hparse : Pattern.parse "d[x]/*.js".toList =
      .ok (.char 'd' :: .oneOf [⟨'x', 'x'⟩] :: .char '/' :: script) := by
    decide +kernel
  have hcomponents : components (body "d[x]/*.js") =
      [['d', '[', 'x', ']'], ['*', '.', 'j', 's']] := by decide
  have hread : [['d', '[', 'x', ']'], ['*', '.', 'j', 's']].mapM Pattern.parse =
      .ok [[.char 'd', .oneOf [⟨'x', 'x'⟩]], script] := by
    decide +kernel
  have hbody : (body "d[x]/*.js").isEmpty = false := by decide
  have hroot : root "d[x]/*.js" = "." := by decide
  have hlast : decide ("d[x]/*.js".toList.getLast? = some '/') = false := by decide
  have hfuel : pathLimit + [[.char 'd', .oneOf [⟨'x', 'x'⟩]], script].length = pathLimit + 1 + 1 :=
    rfl
  have hplace : bracketed.place "." = .ok [] :=
    Workspace.place_eq_ok_iff.mpr ⟨by decide, Workspace.canonical_eq_ok_iff.mpr
      ⟨by decide, .place rfl (.here _ _)⟩⟩
  have hnames : names bracketed "." = ["d[x]", "dx"] := by
    rw [names_of_place hplace rfl]
    exact FileSystem.names_eq_of_mem_iff (by decide) fun name => by
      simp [bracketed, exists_or]
  have haccepts : ["d[x]", "dx"].filter (fun name =>
      Pattern.accepts [.char 'd', .oneOf [⟨'x', 'x'⟩]] name.toList) = ["dx"] := by decide
  have hchild : child "." "dx" = "dx" := by decide
  have hplace' : bracketed.place "dx" = .ok ["dx"] :=
    Workspace.place_eq_ok_iff.mpr ⟨by decide, Workspace.canonical_eq_ok_iff.mpr
      ⟨by decide, .place rfl (.here _ _)⟩⟩
  have hnames' : names bracketed "dx" = ["b.js"] := by
    rw [names_of_place hplace' rfl]
    exact FileSystem.names_eq_of_mem_iff (by decide) fun name => by simp [bracketed]
  have haccepts' : ["b.js"].filter (fun name => script.accepts name.toList) = ["b.js"] := by decide
  have hchild' : child "dx" "b.js" = "dx/b.js" := by decide
  rw [expand_eq_search hparse (hcomponents ▸ hread), hbody, if_neg Bool.false_ne_true, hroot, hlast,
    hfuel, search_wildcard rfl rfl rfl (isDirectory_of_place hplace rfl), hnames, haccepts,
    List.flatMap_singleton, hchild,
    search_wildcard rfl rfl rfl (isDirectory_of_place hplace' rfl), hnames', haccepts',
    List.flatMap_singleton, hchild', search_nil]

/-- Brackets in the name of the directory are read as a class. The script in the directory is not
found, and one beside it is. -/
theorem brackets_lead_elsewhere : bracketed.files.Proper ∧ Asks language "*.js" ∧
    resolveInput bracketed (scripts "d[x]") "*.js" = .ok ["dx/b.js"] ∧
    ¬∃ found, Resolves language bracketed (scripts "d[x]") "*.js" found := by
  have hresolve : resolveInput bracketed (scripts "d[x]") "*.js" = .ok ["dx/b.js"] := by
    have hjoin : Path.join (scripts "d[x]").baseDirectory "*.js" = "d[x]/*.js" := by decide
    have hfile : bracketed.isFile "dx/b.js" = true :=
      Workspace.isFile_of_way (by decide) rfl (.place rfl (.place rfl (.here _ _))) rfl
    have hfiles : ["dx/b.js"].filter (bracketed.isFile ·) = ["dx/b.js"] :=
      List.filter_cons_of_pos hfile
    rw [resolveInput_of_expand asks_scripts.wildcard (hjoin ▸ expander_eq_ok expand_bracketed),
      hfiles, if_neg (List.cons_ne_nil _ _)]
  refine ⟨⟨by decide, by decide⟩, asks_scripts, hresolve, ?_⟩
  rintro ⟨found, h⟩
  have hparts : parts "*.js" = ["*.js"] := by decide
  have hpath : below (written "d[x]") ["a.js"] = "d[x]/a.js" := by decide
  have hfile : bracketed.isFile "d[x]/a.js" = true :=
      Workspace.isFile_of_way (by decide) rfl (.place rfl (.place rfl (.here _ _))) rfl
  have hmem : ["a.js"] ∈ found := (h.files _).mpr
    ⟨by decide, hparts ▸ .name (by decide) ((matches_script_iff _).mpr (by decide))
      (Or.inr (by decide)) .nil, by decide, hpath ▸ hfile⟩
  have hresult := h.result
  rw [hresolve, contribution, if_neg (List.ne_nil_of_mem hmem)] at hresult
  have hmap : "d[x]/a.js" ∈ found.map (below (written "d[x]")) := by
    rw [← hpath]
    exact List.mem_map_of_mem hmem
  have hlist : ["dx/b.js"] = found.map (below (written "d[x]")) := Except.ok.inj hresult
  rw [← hlist] at hmap
  exact absurd hmap (by decide)

end SourceBundle.Project
