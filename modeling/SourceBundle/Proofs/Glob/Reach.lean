import SourceBundle.Proofs.Glob.Laws
import SourceBundle.Proofs.Glob.Reading

/-! # The search by names

What a search finds depends on a directory only through what lies below it. So the search is done
here over lists of names in a view of the directory; the paths that the other search writes are
the same lists, below the path of the directory.
-/
namespace SourceBundle.Glob

/-- What lies below a directory, by the names that lead there. -/
structure View where
  entry : List String → Option Entry
  names : List String → List String

def view (w : Workspace) (path : String) : View where
  entry names := if Location.Named names then w.entry? (below path names) else none
  names place := if Location.Named place then names w (below path place) else []

namespace View

def isFile (v : View) (place : List String) : Bool := (v.entry place).any Entry.isFile

/-- Goes on from a name that has been met under a pattern, to the place that it leads to. -/
def meet (go : List Pattern → List String → List (List String)) (pattern : Pattern)
    (rest : List Pattern) (next : List String) (name : String) : List (List String) :=
  if pattern.isRecursive then
    (match rest.dropWhile Pattern.isRecursive with
      | [] => []
      | first :: rest => if first.accepts name.toList then go rest next else []) ++
    go (pattern :: rest) next
  else if pattern.accepts name.toList then go rest next else []

/-- The files that the patterns find from a place on. -/
def reach (v : View) : Nat → List Pattern → List String → List (List String)
  | 0, _, _ => []
  | _ + 1, [], place => if v.isFile place then [place] else []
  | fuel + 1, pattern :: rest, place =>
    match pattern.literal? with
    | some text =>
      let next := place ++ [String.ofList text]
      if (v.entry next).isSome then reach v fuel rest next else []
    | none =>
      if v.entry place = some .directory then
        (v.names place).flatMap fun name =>
          meet (reach v fuel) pattern rest (place ++ [name]) name
      else []

/-- An entry lies in a directory, under one of its names, and the names are sorted. -/
structure Coherent (v : View) : Prop where
  inside : ∀ place name e, v.entry (place ++ [name]) = some e →
    v.entry place = some .directory ∧ name ∈ v.names place
  named : ∀ place name, name ∈ v.names place → Path.IsName name
  sorted : ∀ place, (v.names place).Pairwise (· < ·)

variable {v : View} {fuel : Nat} {pattern : Pattern} {patterns rest : List Pattern}
  {place next names : List String} {name : String} {found : List String}

theorem Coherent.directory (hv : v.Coherent) {e : Entry} (hne : names ≠ [])
    (he : v.entry (place ++ names) = some e) : v.entry place = some .directory := by
  induction names using List.reverseRecOn generalizing e with
  | nil => exact absurd rfl hne
  | append_singleton names name ih =>
    rw [← List.append_assoc] at he
    have hd := (hv.inside _ _ _ he).1
    by_cases hnil : names = []
    · subst hnil
      rwa [List.append_nil] at hd
    · exact ih hnil hd

theorem isFile_iff : v.isFile place = true ↔ ∃ octets, v.entry place = some (.file octets) := by
  rw [isFile, Option.any_eq_true]
  constructor
  · rintro ⟨e, he, hfile⟩
    cases e with
    | file octets => exact ⟨octets, he⟩
    | directory => cases hfile
    | link => cases hfile
  · rintro ⟨octets, he⟩
    exact ⟨_, he, rfl⟩

/-! ## What is found -/

variable {go : List Pattern → List String → List (List String)}

theorem exists_of_mem_meet (h : found ∈ meet go pattern rest next name) :
    ∃ patterns, found ∈ go patterns next := by
  unfold meet at h
  split_ifs at h with hp ha
  · rcases List.mem_append.mp h with h | h
    · split at h
      · cases h
      · split_ifs at h with hf
        · exact ⟨_, h⟩
        · cases h
    · exact ⟨_, h⟩
  · exact ⟨_, h⟩
  · cases h

/-- What is found under a pattern is found below a name of the place. -/
theorem exists_of_mem_reach_succ (h : found ∈ v.reach (fuel + 1) (pattern :: rest) place) :
    ∃ name patterns, found ∈ v.reach fuel patterns (place ++ [name]) := by
  rw [reach] at h
  split at h
  · dsimp only at h
    split_ifs at h
    · exact ⟨_, _, h⟩
    · cases h
  · split_ifs at h
    · obtain ⟨name, -, h⟩ := List.mem_flatMap.mp h
      exact ⟨name, exists_of_mem_meet h⟩
    · cases h

theorem file_below_of_mem_reach (h : found ∈ v.reach fuel patterns place) :
    place <+: found ∧ v.isFile found = true := by
  induction fuel generalizing patterns place with
  | zero => cases h
  | succ fuel ih =>
    cases patterns with
    | nil =>
      rw [reach] at h
      split_ifs at h with hfile
      · rw [List.mem_singleton.mp h]
        exact ⟨List.prefix_rfl, hfile⟩
      · cases h
    | cons pattern rest =>
      obtain ⟨name, patterns, h⟩ := exists_of_mem_reach_succ h
      obtain ⟨hbegins, hfile⟩ := ih h
      exact ⟨(List.prefix_append place _).trans hbegins, hfile⟩

theorem prefix_of_mem_meet (h : found ∈ meet (v.reach fuel) pattern rest next name) :
    next <+: found := by
  obtain ⟨patterns, h⟩ := exists_of_mem_meet h
  exact (file_below_of_mem_reach h).1

theorem mem_meet_iff {P : Prop}
    (hgo : ∀ patterns, found ∈ go patterns next ↔ Along patterns names ∧ P) :
    found ∈ meet go pattern rest next name ↔ Along (pattern :: rest) (name :: names) ∧ P := by
  unfold meet
  by_cases hp : pattern.isRecursive = true
  · rw [if_pos hp, List.mem_append, along_depth_iff hp, hgo, or_and_right]
    refine or_congr_left ?_
    cases rest.dropWhile Pattern.isRecursive with
    | nil => simp
    | cons first rest =>
      have hfirst : first.accepts name.toList = true ↔ first.Matches name.toList :=
        Pattern.accepts_iff _ _
      by_cases ha : first.Matches name.toList
      · simp [ha, hfirst.mpr ha, hgo]
      · simp [ha, mt hfirst.mp ha]
  · have hp := Bool.eq_false_iff.mpr hp
    rw [hp, if_neg Bool.false_ne_true, along_name_iff hp, ← Pattern.accepts_iff]
    split_ifs with ha
    · rw [hgo, and_iff_right ha]
    · simp [ha]

theorem eq_of_begins {first : String}
    (h : place ++ [first] <+: place ++ name :: names) : first = name := by
  rw [List.prefix_append_right_inj, List.cons_prefix_cons] at h
  exact h.1

theorem Coherent.name_of_isFile (hv : v.Coherent)
    (hfile : v.isFile (place ++ name :: names) = true) :
    v.entry place = some .directory ∧ name ∈ v.names place ∧
      (v.entry (place ++ [name])).isSome = true := by
  obtain ⟨octets, he⟩ := isFile_iff.mp hfile
  have hsome : ∃ e, v.entry (place ++ [name]) = some e := by
    by_cases hnil : names = []
    · exact ⟨_, hnil ▸ he⟩
    · rw [List.append_cons] at he
      exact ⟨_, hv.directory hnil he⟩
  obtain ⟨e, he⟩ := hsome
  obtain ⟨hd, hmem⟩ := hv.inside _ _ _ he
  exact ⟨hd, hmem, by rw [he]; rfl⟩

/-- One step: a name is gone down by, and the search goes on from there. -/
theorem mem_reach_succ_iff (hv : v.Coherent)
    (hnext : ∀ patterns, place ++ name :: names ∈ v.reach fuel patterns (place ++ [name]) ↔
      Along patterns names ∧ v.isFile (place ++ name :: names) = true) :
    place ++ name :: names ∈ v.reach (fuel + 1) (pattern :: rest) place ↔
      Along (pattern :: rest) (name :: names) ∧ v.isFile (place ++ name :: names) = true := by
  rw [reach]
  cases hl : pattern.literal? with
  | some text =>
    dsimp only
    rw [along_name_iff (Pattern.isRecursive_of_literal? hl), Pattern.matches_of_literal? hl]
    by_cases hname : String.ofList text = name
    · subst hname
      rw [String.toList_ofList, eq_self, true_and, ← hnext]
      split_ifs with hsome
      · rfl
      · rw [hnext]
        refine iff_of_false List.not_mem_nil fun h => hsome ?_
        exact (hv.name_of_isFile h.2).2.2
    · refine iff_of_false (fun h => hname ?_) fun h => hname ?_
      · split_ifs at h
        · exact eq_of_begins (file_below_of_mem_reach h).1
        · cases h
      · rw [← h.1.1, String.ofList_toList]
  | none =>
    dsimp only
    split_ifs with hd
    · rw [List.mem_flatMap]
      constructor
      · rintro ⟨first, -, h⟩
        obtain rfl := eq_of_begins (prefix_of_mem_meet h)
        exact (mem_meet_iff hnext).mp h
      · exact fun h => ⟨name, (hv.name_of_isFile h.2).2.1, (mem_meet_iff hnext).mpr h⟩
    · exact iff_of_false List.not_mem_nil fun h => hd (hv.name_of_isFile h.2).1

/-- With fuel for each of its names, a place is found if the names go along the patterns and it is
one of a file. -/
theorem mem_reach_iff (hv : v.Coherent) (hfuel : names.length < fuel) :
    place ++ names ∈ v.reach fuel patterns place ↔
      Along patterns names ∧ v.isFile (place ++ names) = true := by
  induction fuel generalizing patterns place names with
  | zero => exact absurd hfuel (Nat.not_lt_zero _)
  | succ fuel ih =>
    cases patterns with
    | nil =>
      rw [reach]
      constructor
      · intro h
        split_ifs at h with hfile
        · obtain rfl : names = [] := List.append_right_eq_self.mp (List.mem_singleton.mp h)
          rw [List.append_nil]
          exact ⟨.nil, hfile⟩
        · cases h
      · rintro ⟨⟨⟩, hfile⟩
        rw [List.append_nil] at hfile ⊢
        rw [if_pos hfile]
        exact List.mem_singleton_self place
    | cons pattern rest =>
      cases names with
      | nil =>
        refine iff_of_false (fun h => ?_) fun h => h.1.ne_nil (List.cons_ne_nil _ _) rfl
        obtain ⟨name, patterns, h⟩ := exists_of_mem_reach_succ h
        have hname := (file_below_of_mem_reach h).1
        rw [List.prefix_append_right_inj] at hname
        exact List.cons_ne_nil _ _ (List.prefix_nil.mp hname)
      | cons name names =>
        refine mem_reach_succ_iff hv fun patterns => ?_
        have h := @ih patterns (place ++ [name]) names (Nat.lt_of_succ_lt_succ hfuel)
        rwa [List.append_assoc, List.singleton_append] at h

end View

/-! ## The order of what is found -/

variable {pattern : Pattern} {patterns : List Pattern}

namespace View

variable {v : View} {fuel : Nat} {rest : List Pattern} {place next : List String} {name : String}

theorem literal?_of_isRecursive (hp : pattern.isRecursive = true) : pattern.literal? = none := by
  cases hl : pattern.literal? with
  | none => rfl
  | some text => exact absurd hp (Bool.eq_false_iff.mp (Pattern.isRecursive_of_literal? hl))

/-- Two stars go below directories only. -/
theorem reach_of_not_directory (hp : pattern.isRecursive = true)
    (hd : v.entry place ≠ some .directory) : v.reach fuel (pattern :: patterns) place = [] := by
  cases fuel with
  | zero => rfl
  | succ fuel =>
    rw [reach, literal?_of_isRecursive hp]
    exact if_neg hd

theorem pairwise_meet (ht : Tidy Pattern.isRecursive (pattern :: rest))
    (hgo : ∀ patterns, Tidy Pattern.isRecursive patterns →
      (v.reach fuel patterns next).Pairwise (· < ·)) :
    (meet (v.reach fuel) pattern rest next name).Pairwise (· < ·) := by
  unfold meet
  split_ifs with hp ha
  · have hbelow := hgo _ ht
    split
    · exact hbelow
    · rename_i first after hdrop
      rw [tidy_deep_iff hp, hdrop] at ht
      obtain rfl : after = [] :=
        List.length_eq_zero_iff.mp (Nat.le_zero.mp (Nat.le_of_succ_le_succ ht))
      split_ifs
      · -- What the last pattern finds is a file, and nothing lies below that.
        by_cases hfound : v.reach fuel [] next = []
        · rw [hfound]
          exact hbelow
        · have hfile : v.isFile next = true := by
            cases fuel with
            | zero => exact absurd rfl hfound
            | succ fuel =>
              rw [reach] at hfound
              by_contra hfile
              exact hfound (if_neg hfile)
          obtain ⟨octets, he⟩ := isFile_iff.mp hfile
          have hnone : v.reach fuel (pattern :: rest) next = [] := by
            refine reach_of_not_directory hp ?_
            rw [he]
            exact fun h => Entry.noConfusion (Option.some.inj h)
          rw [hnone, List.append_nil]
          exact hgo _ tidy_nil
      · exact hbelow
  · exact hgo _ ((tidy_cons_iff (Bool.eq_false_iff.mpr hp)).mp ht)
  · exact .nil

/-- Under tidy patterns the places are found in the order of their names, each of them once. -/
theorem pairwise_reach (hv : v.Coherent) (ht : Tidy Pattern.isRecursive patterns) :
    (v.reach fuel patterns place).Pairwise (· < ·) := by
  induction fuel generalizing patterns place with
  | zero => exact .nil
  | succ fuel ih =>
    cases patterns with
    | nil =>
      rw [reach]
      split_ifs
      · exact List.pairwise_singleton _ _
      · exact .nil
    | cons pattern rest =>
      rw [reach]
      split
      · rename_i text hl
        dsimp only
        split_ifs
        · exact ih ((tidy_cons_iff (Pattern.isRecursive_of_literal? hl)).mp ht)
        · exact .nil
      · split_ifs
        · rw [List.pairwise_flatMap]
          refine ⟨fun name _ => pairwise_meet ht fun _ => ih, (hv.sorted place).imp ?_⟩
          intro first second hlt found hfound found' hfound'
          have hbegins : ∀ {name found},
              found ∈ meet (v.reach fuel) pattern rest (place ++ [name]) name →
                ∃ names, found = place ++ name :: names := by
            intro name found hm
            obtain ⟨names, rfl⟩ := prefix_of_mem_meet hm
            exact ⟨names, by rw [List.append_assoc]; rfl⟩
          obtain ⟨names, rfl⟩ := hbegins hfound
          obtain ⟨names', rfl⟩ := hbegins hfound'
          exact List.append_left_lt (List.cons_lt_cons_iff.mpr (Or.inl hlt))
        · exact .nil

end View

end SourceBundle.Glob
