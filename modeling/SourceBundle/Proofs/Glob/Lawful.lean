import SourceBundle.Proofs.Glob.Search

/-! # The search keeps the laws of expanders

A text is a pattern where it can be read as a whole and component by component, and a component
matches what the pattern read from it does. Two stars are read as such only where they are all of a
component, so names go along the components as they go along the patterns.
-/
namespace SourceBundle.Glob

variable {w : Workspace} {whole pattern : Pattern} {patterns : List Pattern} {token : Token}
  {text after : List Char} {texts : List (List Char)} {fresh : Bool} {count : Nat}
  {component x path : String} {components names front rest : List String}

/-- The language of this library. -/
def language : Language where
  Valid pattern := (∃ whole, Pattern.parse pattern.toList = .ok whole) ∧
    ∃ patterns, (Glob.components (body pattern)).mapM Pattern.parse = .ok patterns
  Matches component x := ∃ pattern, Pattern.parse component.toList = .ok pattern ∧
    pattern.Matches x.toList

/-! ## Two stars -/

theorem mem_of_mem_members? {members : List Char} {c : Char}
    (h : members? text = some (members, after)) (hc : c ∈ after) : c ∈ text := by
  cases text with
  | nil => cases h
  | cons first text =>
    simp only [members?] at h
    split at h
    · cases h
    · rename_i last after' hd
      cases h
      have hdrop : c ∈ text.dropWhile (· ≠ ']') := by
        rw [hd]
        exact List.mem_cons_of_mem _ hc
      exact List.mem_cons_of_mem _ ((List.dropWhile_sublist _).subset hdrop)

theorem mem_of_mem_class? {c : Char} (h : class? text = some (token, after, count))
    (hc : c ∈ after) : c ∈ text := by
  unfold class? at h
  split at h <;> obtain ⟨⟨members, rest⟩, hm, he⟩ := Option.map_eq_some_iff.mp h <;> cases he
  · exact List.mem_cons_of_mem _ (mem_of_mem_members? hm hc)
  · exact mem_of_mem_members? hm hc

/-- Behind the start of a component no stars stand for directories. -/
theorem Spells.not_mem_anyDepth (h : Spells false text pattern) (hslash : '/' ∉ text) :
    Token.anyDepth ∉ pattern := by
  generalize hfresh : false = fresh at h
  induction h with
  | nil => exact List.not_mem_nil
  | anyChar _ ih | anySequence _ _ ih =>
    have htail := ih (fun hm => hslash (List.mem_cons_of_mem _ hm)) rfl
    simpa using htail
  | lastDepth => cases hfresh
  | anyDepth => cases hfresh
  | oneOf hc _ ih =>
    have htail := ih (fun hm => hslash (List.mem_cons_of_mem _ (mem_of_mem_class? hc hm))) rfl
    obtain ⟨spans, rfl | rfl⟩ := class?_token hc <;> simpa using htail
  | @char _ c _ _ hc _ ih =>
    have hne : c ≠ '/' := fun heq => hslash (heq ▸ List.mem_cons_self)
    have htail := ih (fun hm => hslash (List.mem_cons_of_mem _ hm)) (by simpa using hne)
    simpa using htail

/-- Only two stars by themselves stand for directories. -/
theorem isRecursive_iff_of_parse (h : Pattern.parse text = .ok pattern) (hslash : '/' ∉ text) :
    pattern.isRecursive = true ↔ text = ['*', '*'] := by
  have hplain : ∀ {text token rest}, token ≠ .anyDepth → Spells false text rest → '/' ∉ text →
      Pattern.isRecursive (token :: rest) = false := fun ht hs hn => by
    simpa [Pattern.isRecursive, ht.symm] using hs.not_mem_anyDepth hn
  have htail : ∀ {c : Char} {text : List Char}, '/' ∉ c :: text → '/' ∉ text :=
    fun hs hm => hs (List.mem_cons_of_mem _ hm)
  cases parse_eq_ok_iff.mp h with
  | nil => simp [Pattern.isRecursive]
  | lastDepth => simp [Pattern.isRecursive]
  | anyDepth => exact absurd (by simp) hslash
  | anyChar hs =>
    rw [hplain (by decide) hs (htail hslash)]
    simp
  | anySequence hstar hs =>
    rw [hplain (by decide) hs (htail hslash)]
    refine iff_of_false Bool.false_ne_true fun heq => hstar ?_
    rw [(List.cons_eq_cons.mp heq).2]
    rfl
  | oneOf hc hs =>
    rename_i token _ _
    have htoken : token ≠ .anyDepth := by
      obtain ⟨spans, rfl | rfl⟩ := class?_token hc <;> exact Token.noConfusion
    rw [hplain htoken hs fun hm => htail hslash (mem_of_mem_class? hc hm)]
    simp
  | char hc hs =>
    rename_i c text rest
    have hne : c ≠ '/' := fun heq => hslash (heq ▸ List.mem_cons_self)
    have htoken : Token.char c ≠ .anyDepth := Token.noConfusion
    rw [decide_eq_false hne] at hs
    rw [hplain htoken hs (htail hslash)]
    exact iff_of_false Bool.false_ne_true fun heq => hc.2.1 (List.cons_eq_cons.mp heq).1

/-! ## Components and the patterns read from them -/

/-- The pattern that is read from a component, where one is. -/
def patternOf (component : String) : Pattern :=
  (Pattern.parse component.toList).toOption.getD []

theorem patternOf_eq (h : Pattern.parse component.toList = .ok pattern) :
    patternOf component = pattern := by
  rw [patternOf, h]
  rfl

theorem parse_patternOf (h : ∃ pattern, Pattern.parse component.toList = .ok pattern) :
    Pattern.parse component.toList = .ok (patternOf component) := by
  obtain ⟨pattern, hp⟩ := h
  rw [patternOf_eq hp, hp]

theorem patternOf_of_plain (h : Plain component.toList) :
    Pattern.parse component.toList = .ok (literal component) ∧
      patternOf component = literal component := by
  have hparse : Pattern.parse component.toList = .ok (literal component) :=
    parse_eq_ok_iff.mpr h.spells
  exact ⟨hparse, patternOf_eq hparse⟩

theorem matches_iff (h : ∃ pattern, Pattern.parse component.toList = .ok pattern) :
    language.Matches component x ↔ (patternOf component).Matches x.toList := by
  constructor
  · rintro ⟨pattern, hp, hx⟩
    rwa [patternOf_eq hp]
  · exact fun hx => ⟨_, parse_patternOf h, hx⟩

theorem matches_of_plain (h : Plain component.toList) :
    language.Matches component x ↔ x = component := by
  obtain ⟨hparse, hpattern⟩ := patternOf_of_plain h
  rw [matches_iff ⟨_, hparse⟩, hpattern, Pattern.matches_of_literal? (literal?_literal component),
    String.toList_inj]

/-- Patterns are read from all components, each from its own. -/
theorem mapM_parse_iff : texts.mapM Pattern.parse = .ok patterns ↔
    (∀ component ∈ texts.map String.ofList, ∃ pattern,
      Pattern.parse component.toList = .ok pattern) ∧
    patterns = (texts.map String.ofList).map patternOf := by
  induction texts generalizing patterns with
  | nil =>
    refine ⟨fun h => ?_, fun ⟨_, h⟩ => h ▸ rfl⟩
    cases h
    exact ⟨fun _ hm => absurd hm List.not_mem_nil, rfl⟩
  | cons text texts ih =>
    simp only [List.map_cons, List.mapM_cons, List.forall_mem_cons, String.toList_ofList]
    constructor
    · intro h
      obtain ⟨first, hfirst, h⟩ := bind_ok h
      obtain ⟨rest, hrest, h⟩ := bind_ok h
      cases h
      obtain ⟨hread, rfl⟩ := ih.mp hrest
      have htext : Pattern.parse (String.ofList text).toList = .ok first := by
        rwa [String.toList_ofList]
      exact ⟨⟨⟨first, hfirst⟩, hread⟩, by rw [patternOf_eq htext]⟩
    · rintro ⟨⟨⟨first, hfirst⟩, hread⟩, rfl⟩
      have htext : Pattern.parse (String.ofList text).toList = .ok first := by
        rwa [String.toList_ofList]
      rw [hfirst, ih.mpr ⟨hread, rfl⟩, patternOf_eq htext]
      rfl

/-- A component that is a name and can be read. -/
def Readable (component : String) : Prop :=
  Path.IsName component ∧ ∃ pattern, Pattern.parse component.toList = .ok pattern

theorem Readable.isRecursive (h : Readable component) :
    (patternOf component).isRecursive = isDepth component := by
  rw [Bool.eq_iff_iff, isRecursive_iff_of_parse (parse_patternOf h.2) h.1.whole, isDepth,
    decide_eq_true_eq, ← String.toList_inj]
  rfl

theorem Readable.isName_of_literal? (h : Readable component)
    (hl : (patternOf component).literal? = some text) : Path.IsName (String.ofList text) := by
  rw [(parse_eq_ok_iff.mp (parse_patternOf h.2)).text_eq hl, String.ofList_toList]
  exact h.1

theorem Spells.head?_eq (h : Spells fresh text pattern) {c : Char}
    (hc : pattern.head? = some (.char c)) : text.head? = some c := by
  cases h with
  | char =>
    cases hc
    rfl
  | oneOf hclass => obtain ⟨spans, rfl | rfl⟩ := class?_token hclass <;> cases hc
  | _ => cases hc

theorem Readable.dotNames_eq_nil (h : Readable component) (hd : language.Dotless component) :
    dotNames (patternOf component) = [] := by
  unfold dotNames
  split_ifs with hhead
  · obtain ⟨hhere, hdown⟩ := hd ((parse_eq_ok_iff.mp (parse_patternOf h.2)).head?_eq hhead)
    rw [matches_iff h.2, ← Pattern.accepts_iff] at hhere hdown
    refine List.filter_eq_nil_iff.mpr fun name hm => ?_
    rcases List.mem_pair.mp hm with rfl | rfl
    · exact hdown
    · exact hhere
  · rfl

theorem tidy_patternOf (hr : ∀ component ∈ rest, Readable component) :
    Tidy Pattern.isRecursive (rest.map patternOf) ↔ Tidy isDepth rest := by
  rw [tidy_map_iff]
  exact tidy_congr fun component hm => (hr component hm).isRecursive

theorem fit_patternOf (hr : ∀ component ∈ rest, Readable component)
    (hd : ∀ component ∈ rest.dropLast, language.Dotless component) :
    Fit (rest.map patternOf) where
  names pattern hp text hl := by
    obtain ⟨component, hm, rfl⟩ := List.mem_map.mp hp
    exact (hr component hm).isName_of_literal? hl
  dots pattern hp := by
    rw [← List.map_dropLast] at hp
    obtain ⟨component, hm, rfl⟩ := List.mem_map.mp hp
    exact (hr component (List.mem_of_mem_dropLast hm)).dotNames_eq_nil (hd component hm)

/-! ## Going along -/

theorem along_of_goes (hr : ∀ component ∈ rest, Readable component)
    (h : language.Goes rest names) :
    Along (rest.map patternOf) names ∧ Location.Named names := by
  induction h with
  | nil => exact ⟨.nil, fun _ hm => absurd hm List.not_mem_nil⟩
  | name hc hx hn _ ih =>
    obtain ⟨hcomponent, hrest⟩ := List.forall_mem_cons.mp hr
    obtain ⟨halong, hnamed⟩ := ih hrest
    have hdeep := hcomponent.isRecursive.trans (decide_eq_false hc)
    refine ⟨.name hdeep ((matches_iff hcomponent.2).mp hx) halong,
      List.forall_mem_cons.mpr ⟨?_, hnamed⟩⟩
    rcases hn with hplain | hn
    · exact (matches_of_plain hplain).mp hx ▸ hcomponent.1
    · exact hn
  | skip hne _ ih =>
    obtain ⟨hcomponent, hrest⟩ := List.forall_mem_cons.mp hr
    obtain ⟨halong, hnamed⟩ := ih hrest
    exact ⟨.skip hcomponent.isRecursive (by simpa using hne) halong, hnamed⟩
  | deeper hn _ ih =>
    obtain ⟨halong, hnamed⟩ := ih hr
    obtain ⟨hcomponent, -⟩ := List.forall_mem_cons.mp hr
    exact ⟨.deeper hcomponent.isRecursive halong, List.forall_mem_cons.mpr ⟨hn, hnamed⟩⟩

theorem goes_of_along (hr : ∀ component ∈ rest, Readable component)
    (h : Along (rest.map patternOf) names) (hn : Location.Named names) :
    language.Goes rest names := by
  generalize hpatterns : rest.map patternOf = patterns at h
  induction h generalizing rest with
  | nil =>
    rw [List.map_eq_nil_iff.mp hpatterns]
    exact .nil
  | name hp hx _ ih =>
    obtain ⟨component, more, rfl, rfl, rfl⟩ := List.map_eq_cons_iff.mp hpatterns
    obtain ⟨hcomponent, hmore⟩ := List.forall_mem_cons.mp hr
    obtain ⟨hx', hnames⟩ := List.forall_mem_cons.mp hn
    rw [hcomponent.isRecursive] at hp
    exact .name (of_decide_eq_false hp) ((matches_iff hcomponent.2).mpr hx) (Or.inr hx')
      (ih hmore hnames rfl)
  | skip hp hne _ ih =>
    obtain ⟨component, more, rfl, rfl, rfl⟩ := List.map_eq_cons_iff.mp hpatterns
    obtain ⟨hcomponent, hmore⟩ := List.forall_mem_cons.mp hr
    rw [hcomponent.isRecursive] at hp
    obtain rfl := of_decide_eq_true hp
    exact .skip (by simpa using hne) (ih hmore hn rfl)
  | deeper hp _ ih =>
    obtain ⟨hx, hnames⟩ := List.forall_mem_cons.mp hn
    have hgoes := ih hr hnames hpatterns
    obtain ⟨component, more, rfl, rfl, rfl⟩ := List.map_eq_cons_iff.mp hpatterns
    rw [(hr component List.mem_cons_self).isRecursive] at hp
    obtain rfl := of_decide_eq_true hp
    exact .deeper hx hgoes

/-- Names go along components as they go along the patterns read from them. -/
theorem goes_iff (hr : ∀ component ∈ rest, Readable component) :
    language.Goes rest names ↔ Along (rest.map patternOf) names ∧ Location.Named names :=
  ⟨along_of_goes hr, fun ⟨h, hn⟩ => goes_of_along hr h hn⟩

/-! ## The laws -/

theorem expand_eq_search (hwhole : Pattern.parse path.toList = .ok whole)
    (hp : (Glob.components (body path)).mapM Pattern.parse = .ok patterns) :
    expand w path = .ok (search w (path.toList.getLast? = some '/')
      (pathLimit + (if (body path).isEmpty then [[]] else patterns).length + 1)
      (if (body path).isEmpty then [[]] else patterns) (root path)) := by
  have hpair : (if Path.isAbsolute path then ("/", path.toList.drop 1) else (".", path.toList)) =
      (root path, body path) := by
    unfold root body
    split_ifs <;> rfl
  unfold expand
  dsimp only
  rw [hwhole, hpair]
  simp only [bind, Except.bind, hp]
  rfl

/-- Texts that can be read are expanded without a fault. -/
theorem expander_eq_ok {found : List String} (h : expand w path = .ok found) :
    Expander.expand w path = .ok (found.map .ok) := by
  have hdef : Expander.expand w path =
      ((expand w path).map (List.map .ok)).mapError Malformed.text := rfl
  rw [hdef, h]
  rfl

/-- The components of a text up to a slash come before those of what follows. -/
theorem components_append {text input : String} (hend : text.toList.getLast? = some '/')
    (hrel : Path.isAbsolute input = false) : Glob.components (body (text ++ input)) =
      Glob.components (body text) ++ Glob.components (body input) := by
  have hjoin : ∀ path, Path.isAbsolute path = false → Path.join text path = text ++ path := by
    intro path hpath
    rw [Path.join, hpath, if_neg Bool.false_ne_true]
    exact if_pos (by simp [hend])
  have hempty : Path.join text "" = text := (hjoin "" Path.isAbsolute_empty).trans (by simp)
  have hbody : body input = input.toList := by
    rw [body, hrel, if_neg Bool.false_ne_true]
  have hall := @components_join text input hrel
  rwa [hjoin input hrel, hempty, ← hbody] at hall

/-- Plain text up to a slash may stand in front of a pattern. -/
theorem valid_append {text input : String} (ht : Plain text.toList)
    (hend : text.toList.getLast? = some '/') (hrel : Path.isAbsolute input = false)
    (hi : language.Valid input) : language.Valid (text ++ input) := by
  obtain ⟨⟨whole, hwhole⟩, patterns, hpatterns⟩ := hi
  refine ⟨⟨text.toList.map .char ++ whole, ?_⟩, _, mapM_parse_iff.mpr ⟨?_, rfl⟩⟩
  · rw [String.toList_append]
    exact parse_eq_ok_iff.mpr (Spells.append ht (parse_eq_ok_iff.mp hwhole) hend)
  · rw [components_append hend hrel, List.map_append]
    refine List.forall_mem_append.mpr ⟨fun component hm => ?_, (mapM_parse_iff.mp hpatterns).1⟩
    obtain ⟨piece, hpiece, rfl⟩ := List.mem_map.mp hm
    refine ⟨_, (patternOf_of_plain ?_).1⟩
    rw [String.toList_ofList]
    exact (plain_body ht).components hpiece

/-- The places that the search finds, by their names from where it starts. -/
theorem finds_search (hw : w.files.Proper) (hread : ∀ component ∈ rest, Readable component)
    (hr : language.Regular path front rest) :
    ∃ places, Finds w language path (front ++ rest)
      (search w (path.toList.getLast? = some '/')
        (pathLimit + (front.map literal ++ rest.map patternOf).length + 1)
        (front.map literal ++ rest.map patternOf) (root path)) places := by
  have hroot := reached_root path
  have hreached := reached_below hroot hr.lasting
  have hliteral : language.Literal := fun _ h _ => matches_of_plain h
  have hne : rest.map patternOf ≠ [] := by simpa using hr.ne_nil
  refine ⟨((view w (below (root path) front)).hits (path.toList.getLast? = some '/')
    (rest.map patternOf)).map (front ++ ·), ?_, fun names => ?_, fun ht => ?_⟩
  · rw [filter_search_front hw hroot hr.lasting (fit_patternOf hread hr.dotless) hne, List.map_map]
    exact List.map_congr_left fun names _ => (below_append _ _ _).symm
  · rw [hliteral.goes_append_iff hr.plain, List.mem_map]
    constructor
    · rintro ⟨more, hm, rfl⟩
      obtain ⟨hn, halong, hlast, hfile⟩ := (mem_hits_iff hw hreached).mp hm
      exact ⟨⟨more, rfl, (goes_iff hread).mpr ⟨halong, hn⟩⟩, of_decide_eq_false hlast,
        (below_append _ _ _) ▸ hfile⟩
    · rintro ⟨⟨more, rfl, hgoes⟩, hlast, hfile⟩
      obtain ⟨halong, hn⟩ := (goes_iff hread).mp hgoes
      exact ⟨more, (mem_hits_iff hw hreached).mpr ⟨hn, halong, decide_eq_false hlast,
        (below_append _ _ _) ▸ hfile⟩, rfl⟩
  · have htidy : Tidy isDepth rest :=
      (tidy_append_iff fun step hm => isDepth_of_plain (hr.plain step hm)).mp ht
    rw [List.pairwise_map]
    exact (pairwise_hits hw hreached ((tidy_patternOf hread).mpr htidy)).imp List.append_left_lt

/-- The search keeps the laws. -/
theorem laws : Laws language where
  literal _ h _ := matches_of_plain h
  front _ _ := valid_append
  finds w pattern hw hv := by
    obtain ⟨⟨whole, hwhole⟩, patterns, hpatterns⟩ := hv
    refine ⟨_, expander_eq_ok (expand_eq_search hwhole hpatterns), fun front rest hr => ?_⟩
    obtain ⟨hparse, rfl⟩ := mapM_parse_iff.mp hpatterns
    have hbody : (body pattern).isEmpty = false := by
      rw [List.isEmpty_eq_false_iff]
      intro hempty
      have hsplit := hr.split
      rw [hempty, components_nil] at hsplit
      exact hr.ne_nil (List.append_eq_nil_iff.mp hsplit.symm).2
    rw [hr.split] at hparse
    have hread : ∀ component ∈ rest, Readable component := fun component hm =>
      ⟨hr.named component hm, hparse component (List.mem_append_right _ hm)⟩
    have hfront : front.map patternOf = front.map literal :=
      List.map_congr_left fun step hm => (patternOf_of_plain (hr.plain step hm)).2
    rw [hbody, if_neg Bool.false_ne_true, hr.split, List.map_append, hfront]
    exact finds_search hw hread hr

end SourceBundle.Glob
