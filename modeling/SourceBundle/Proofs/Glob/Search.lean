import SourceBundle.Glob.Expand
import SourceBundle.Proofs.Glob.Reach

/-! # The search below a directory

The files among the paths that a search finds below a directory are those that the search by names
reaches, and on its way to the directory it meets the components of the directory one by one.
-/
namespace SourceBundle.Glob

variable {w : Workspace} {path name : String} {place names : List String} {fuel : Nat}
  {pattern : Pattern} {patterns rest : List Pattern}

/-! ## One step -/

theorem search_nil : search w false (fuel + 1) [] path = [path] := by
  rw [search, Bool.false_and, if_neg Bool.false_ne_true]

/-- A component with wildcards goes on from each name that it accepts. -/
theorem search_wildcard {directories : Bool} (hl : pattern.literal? = none)
    (hp : pattern.isRecursive = false) (hdots : dotNames pattern = [])
    (hd : w.isDirectory path = true) :
    search w directories (fuel + 1) (pattern :: rest) path =
      ((Glob.names w path).filter fun name => pattern.accepts name.toList).flatMap fun name =>
        search w directories fuel rest (child path name) := by
  rw [search, hl]
  dsimp only
  rw [if_pos hd, hdots, List.flatMap_nil, List.nil_append]
  induction Glob.names w path with
  | nil => rfl
  | cons name names ih =>
    rw [List.flatMap_cons, ih]
    simp only [meet, hp, Bool.false_eq_true, if_false]
    by_cases ha : pattern.accepts name.toList = true <;> simp [ha]

/-! ## The view of a directory -/

theorem view_entry (hp : Location.Named place) :
    (view w path).entry place = w.entry? (below path place) := if_pos hp

theorem view_names (hp : Location.Named place) :
    (view w path).names place = Glob.names w (below path place) := if_pos hp

theorem view_names_of_not_named (hp : ¬Location.Named place) : (view w path).names place = [] :=
  if_neg hp

theorem named_of_view {e : Entry} (he : (view w path).entry place = some e) :
    Location.Named place := by
  by_contra hp
  have hnone : (view w path).entry place = none := if_neg hp
  rw [hnone] at he
  cases he

theorem view_isFile (hp : Location.Named place) :
    (view w path).isFile place = w.isFile (below path place) := by
  rw [View.isFile, view_entry hp, Workspace.isFile]

theorem view_isFile_iff : (view w path).isFile place = true ↔
    Location.Named place ∧ w.isFile (below path place) = true := by
  constructor
  · intro h
    obtain ⟨octets, he⟩ := View.isFile_iff.mp h
    have hp := named_of_view he
    exact ⟨hp, view_isFile hp ▸ h⟩
  · rintro ⟨hp, h⟩
    rwa [view_isFile hp]

theorem view_coherent (hw : w.files.Proper) (h : Reached path) : (view w path).Coherent where
  inside place name e he := by
    have hnamed := named_of_view he
    have hp : Location.Named place := fun piece hm => hnamed piece (List.mem_append_left _ hm)
    have hname : Path.IsName name :=
      hnamed name (List.mem_append_right _ (List.mem_singleton_self name))
    have hreached := reached_below h (lasting_of_named h hp)
    rw [view_entry hnamed, below_concat] at he
    rw [view_entry hp, view_names hp]
    exact ⟨Workspace.isDirectory_iff.mp (isDirectory_of_entry_child hreached hname.whole he),
      mem_names_of_entry_child hreached hname he⟩
  named place name hn := by
    by_cases hp : Location.Named place
    · rw [view_names hp] at hn
      exact isName_of_names hw hn
    · rw [view_names_of_not_named hp] at hn
      cases hn
  sorted place := by
    by_cases hp : Location.Named place
    · rw [view_names hp]
      exact names_pairwise w _
    · rw [view_names_of_not_named hp]
      exact .nil

/-! ## One search beside the other -/

/-- A pattern without wildcards is a name, and only the last pattern may match a dot name. -/
structure Fit (patterns : List Pattern) : Prop where
  names : ∀ pattern ∈ patterns, ∀ text, pattern.literal? = some text →
    Path.IsName (String.ofList text)
  dots : ∀ pattern ∈ patterns.dropLast, dotNames pattern = []

theorem Fit.suffix (h : Fit patterns) (hs : rest <:+ patterns) : Fit rest := by
  refine ⟨fun pattern hm => h.names pattern (hs.subset hm), fun pattern hm => h.dots pattern ?_⟩
  obtain ⟨front, rfl⟩ := hs
  have hne : rest ≠ [] := by
    rintro rfl
    cases hm
  rw [List.dropLast_append_of_ne_nil hne]
  exact List.mem_append_right _ hm

/-- The dot names lead to no file: nothing follows them, or there are none. -/
theorem filter_dots (hw : w.files.Proper) (hf : Fit (pattern :: rest)) (h : path ≠ "") :
    ((dotNames pattern).flatMap fun name =>
      search w false fuel rest (Path.join path name)).filter (w.isFile ·) = [] := by
  rw [List.filter_flatMap, List.flatMap_eq_nil_iff]
  intro name hn
  cases rest with
  | cons next rest =>
    rw [hf.dots pattern (List.mem_cons_self)] at hn
    cases hn
  | nil =>
    have hdot : name = ".." ∨ name = "." := by
      unfold dotNames at hn
      split_ifs at hn
      · simpa using (List.mem_filter.mp hn).1
      · cases hn
    cases fuel with
    | zero => rfl
    | succ fuel =>
      have hfile := not_isFile_dots hw h hdot
      simp [search, hfile]

theorem filter_meet (hf : Fit (pattern :: rest)) (hp : Location.Named place)
    (hgo : ∀ patterns, Fit patterns →
      (search w false fuel patterns (below path place)).filter (w.isFile ·) =
        ((view w path).reach fuel patterns place).map (below path)) :
    (meet w (search w false fuel) (pattern :: rest) (below path place) name).filter (w.isFile ·) =
      (View.meet ((view w path).reach fuel) pattern rest place name).map (below path) := by
  have hrest : Fit rest := hf.suffix (List.suffix_cons pattern rest)
  by_cases hrecursive : pattern.isRecursive = true
  · have hbelow := hgo _ hf
    simp only [meet, View.meet, if_pos hrecursive]
    cases hd : rest.dropWhile Pattern.isRecursive with
    | nil =>
      rw [List.nil_append, ← hbelow]
      split_ifs with hdirectory
      · rw [List.filter_cons_of_neg (by simp [Workspace.not_isFile_of_directory hdirectory])]
      · have hne : (view w path).entry place ≠ some .directory := by
          rw [view_entry hp]
          exact fun he => hdirectory (Workspace.isDirectory_iff.mpr he)
        rw [hbelow, View.reach_of_not_directory hrecursive hne]
        rfl
    | cons first after =>
      have hdrop : first :: after <:+ rest := hd ▸ List.dropWhile_suffix _
      have hafter : Fit after := hrest.suffix ((List.suffix_cons first after).trans hdrop)
      rw [List.filter_append, List.map_append, hbelow]
      congr 1
      dsimp only
      split_ifs
      · exact hgo _ hafter
      · rfl
  · simp only [meet, View.meet, if_neg hrecursive]
    split_ifs
    · exact hgo _ hrest
    · rfl

/-- The files that a search finds are those that the search by names reaches. -/
theorem filter_search (hw : w.files.Proper) (h : Reached path) (hf : Fit patterns)
    (hp : Location.Named place) :
    (search w false fuel patterns (below path place)).filter (w.isFile ·) =
      ((view w path).reach fuel patterns place).map (below path) := by
  induction fuel generalizing patterns place with
  | zero => rfl
  | succ fuel ih =>
    cases patterns with
    | nil =>
      rw [search_nil, View.reach, view_isFile hp]
      split_ifs with hfile <;> simp [hfile]
    | cons pattern rest =>
      have hrest : Fit rest := hf.suffix (List.suffix_cons pattern rest)
      rw [search, View.reach]
      cases hl : pattern.literal? with
      | some text =>
        have hname := hf.names pattern List.mem_cons_self text hl
        have hnext := hp.concat hname
        dsimp only
        rw [if_neg (not_or.mpr ⟨hname.ne_here, hname.down⟩), view_entry hnext, ← below_concat,
          ← Workspace.exists?]
        split_ifs
        · exact ih hrest hnext
        · rfl
      | none =>
        dsimp only
        rw [view_entry hp, view_names hp]
        simp only [Workspace.isDirectory_iff]
        split_ifs
        · have hreached := reached_below h (lasting_of_named h hp)
          rw [List.filter_append, filter_dots hw hf hreached.something, List.nil_append,
            List.filter_flatMap, List.map_flatMap]
          refine List.flatMap_congr fun name hm => ?_
          have hnext := hp.concat (isName_of_names hw hm)
          rw [← below_concat]
          exact filter_meet hf hnext fun patterns hfit => ih hfit hnext
        · rfl

/-! ## A search for directories -/

variable {found : String}

theorem isDirectory_of_mem_meet {go : List Pattern → String → List String}
    (hgo : ∀ patterns path, found ∈ go patterns path → w.isDirectory found = true)
    (h : found ∈ meet w go patterns path name) : w.isDirectory found = true := by
  cases patterns with
  | nil => cases h
  | cons pattern rest =>
    by_cases hrecursive : pattern.isRecursive = true
    · simp only [meet, if_pos hrecursive] at h
      split at h
      · split_ifs at h with hdirectory
        · rcases List.mem_cons.mp h with rfl | h
          · exact hdirectory
          · exact hgo _ _ h
        · cases h
      · rcases List.mem_append.mp h with h | h
        · split_ifs at h
          · exact hgo _ _ h
          · cases h
        · exact hgo _ _ h
    · simp only [meet, if_neg hrecursive] at h
      split_ifs at h
      · exact hgo _ _ h
      · cases h

theorem isDirectory_of_mem_search (h : found ∈ search w true fuel patterns path) :
    w.isDirectory found = true := by
  induction fuel generalizing patterns path with
  | zero => cases h
  | succ fuel ih =>
    cases patterns with
    | nil =>
      rw [search] at h
      split_ifs at h with hdirectory
      · cases h
      · rw [List.mem_singleton.mp h]
        simpa using hdirectory
    | cons pattern rest =>
      rw [search] at h
      split at h
      · dsimp only at h
        split_ifs at h
        · exact ih h
        · cases h
        · exact ih h
        · cases h
      · split_ifs at h
        · rcases List.mem_append.mp h with h | h
          · obtain ⟨name, -, h⟩ := List.mem_flatMap.mp h
            exact ih h
          · obtain ⟨name, -, h⟩ := List.mem_flatMap.mp h
            exact isDirectory_of_mem_meet (fun _ _ => ih) h
        · cases h

theorem filter_search_directories (w : Workspace) (fuel : Nat) (patterns : List Pattern)
    (path : String) : (search w true fuel patterns path).filter (w.isFile ·) = [] := by
  rw [List.filter_eq_nil_iff]
  intro found h
  rw [Workspace.not_isFile_of_directory (isDirectory_of_mem_search h)]
  exact Bool.false_ne_true

/-! ## The way to the directory -/

/-- What is below a directory is below each directory on the way to it. -/
theorem exists_of_entry_steps {step : String} {steps : List String} {e : Entry} (h : Reached path)
    (hs : Lasting path (step :: steps)) (hne : names ≠ []) (hn : Location.Named names)
    (he : w.entry? (below (below path (step :: steps)) names) = some e) :
    w.isDirectory path = true ∧ w.exists? (child path step) = true := by
  have hlasting : Lasting path (step :: (steps ++ names)) :=
    lasting_append_iff.mpr ⟨hs, lasting_of_named (reached_below h hs) hn⟩
  rw [← below_append] at he
  refine ⟨isDirectory_of_entry_below h hlasting he, ?_⟩
  obtain ⟨hwhole, hne', -⟩ := lasting_cons_iff.mp hs
  have hchild := reached_child h hwhole hne'
  cases hrest : steps ++ names with
  | nil => exact absurd (List.append_eq_nil_iff.mp hrest).2 hne
  | cons next rest =>
    rw [hrest] at hlasting
    rw [List.cons_append, hrest, below_cons] at he
    have hdirectory := isDirectory_of_entry_below hchild (lasting_cons_iff.mp hlasting).2.2 he
    rw [Workspace.exists?, Workspace.isDirectory_iff.mp hdirectory]
    rfl

/-- The search takes the components of a directory one by one. Where it stops on its way, nothing
is below the directory. -/
theorem search_steps {directories : Bool} {steps : List String} (h : Reached path)
    (hs : Lasting path steps) :
    search w directories (steps.length + fuel) (steps.map literal ++ patterns) path =
        search w directories fuel patterns (below path steps) ∨
      search w directories (steps.length + fuel) (steps.map literal ++ patterns) path = [] ∧
        ∀ names, names ≠ [] → Location.Named names →
          w.entry? (below (below path steps) names) = none := by
  induction steps generalizing path with
  | nil => exact Or.inl (by rw [List.length_nil, Nat.zero_add]; rfl)
  | cons step steps ih =>
    rw [List.length_cons, Nat.succ_add, List.map_cons, List.cons_append, search, literal?_literal]
    dsimp only
    rw [String.ofList_toList]
    by_cases hfound : (if step = "." ∨ step = ".." then w.isDirectory path
        else w.exists? (child path step)) = true
    · obtain ⟨hwhole, hne, hs⟩ := lasting_cons_iff.mp hs
      rw [if_pos hfound]
      exact ih (reached_child h hwhole hne) hs
    · rw [if_neg hfound]
      refine Or.inr ⟨rfl, fun names hne hn => Option.eq_none_iff_forall_ne_some.mpr fun e he => ?_⟩
      obtain ⟨hdirectory, hexists⟩ := exists_of_entry_steps h hs hne hn he
      rw [hdirectory, hexists, ite_self] at hfound
      exact hfound rfl

/-! ## What is found below a directory -/

/-- With more fuel than a path has octets, the places found are those of the files that the patterns
lead to. -/
theorem mem_reach_view_iff (hw : w.files.Proper) (h : Reached path) (hfuel : pathLimit < fuel) :
    names ∈ (view w path).reach fuel patterns [] ↔
      Along patterns names ∧ (view w path).isFile names = true := by
  by_cases hfile : (view w path).isFile names = true
  · obtain ⟨octets, he⟩ := View.isFile_iff.mp hfile
    have hn := named_of_view he
    rw [view_entry hn] at he
    have hlength := length_le_of_entry h hn he
    exact View.mem_reach_iff (view_coherent hw h) (Nat.lt_of_le_of_lt hlength hfuel)
  · exact iff_of_false (fun hm => hfile (View.file_below_of_mem_reach hm).2) fun hm => hfile hm.2

/-- The places of the files that the patterns lead to, none if directories are asked for. -/
def View.hits (v : View) (directories : Bool) (patterns : List Pattern) : List (List String) :=
  if directories then [] else v.reach (pathLimit + patterns.length + 1) patterns []

/-- In front of the patterns stand the steps to a directory. What is found lies below it. -/
theorem filter_search_front {start : String} {front : List String} {directories : Bool}
    (hw : w.files.Proper) (h : Reached start) (hs : Lasting start front) (hf : Fit patterns)
    (hne : patterns ≠ []) :
    (search w directories (pathLimit + (front.map literal ++ patterns).length + 1)
        (front.map literal ++ patterns) start).filter (w.isFile ·) =
      ((view w (below start front)).hits directories patterns).map
        (below (below start front)) := by
  have hreached := reached_below h hs
  have hfuel : pathLimit + (front.map literal ++ patterns).length + 1 =
      front.length + (pathLimit + patterns.length + 1) := by
    rw [List.length_append, List.length_map]
    omega
  cases directories with
  | true =>
    rw [filter_search_directories]
    rfl
  | false =>
    rw [hfuel]
    rcases search_steps h hs with hsearch | ⟨hsearch, hnone⟩ <;> rw [hsearch]
    · have hnil : Location.Named [] := fun _ hm => absurd hm List.not_mem_nil
      rw [View.hits, if_neg Bool.false_ne_true, ← filter_search hw hreached hf hnil, below_nil]
    · have hempty : (view w (below start front)).hits false patterns = [] := by
        refine List.eq_nil_iff_forall_not_mem.mpr fun names hm => ?_
        have hfuel : pathLimit < pathLimit + patterns.length + 1 := by omega
        obtain ⟨halong, hfile⟩ := (mem_reach_view_iff hw hreached hfuel).mp hm
        obtain ⟨octets, he⟩ := View.isFile_iff.mp hfile
        have hn := named_of_view he
        rw [view_entry hn] at he
        cases (hnone names (halong.ne_nil hne) hn).symm.trans he
      rw [hempty]
      rfl

theorem mem_hits_iff {directories : Bool} (hw : w.files.Proper) (h : Reached path) :
    names ∈ (view w path).hits directories patterns ↔ Location.Named names ∧
      Along patterns names ∧ directories = false ∧ w.isFile (below path names) = true := by
  unfold View.hits
  cases directories with
  | true => simp
  | false =>
    have hfuel : pathLimit < pathLimit + patterns.length + 1 := by omega
    rw [if_neg Bool.false_ne_true, mem_reach_view_iff hw h hfuel, view_isFile_iff]
    simp only [true_and]
    exact and_left_comm

theorem pairwise_hits {directories : Bool} (hw : w.files.Proper) (h : Reached path)
    (ht : Tidy Pattern.isRecursive patterns) :
    ((view w path).hits directories patterns).Pairwise (· < ·) := by
  unfold View.hits
  split_ifs
  · exact .nil
  · exact View.pairwise_reach (view_coherent hw h) ht

end SourceBundle.Glob
