import SourceBundle.Proofs.Glob.Below

/-! # What an expander promises

A pattern is read component by component. An expander finds the files that lie at the end of the
names that go along the components, and where at most one component follows two stars it finds them
in the order of their names. No more is promised than what is said of patterns in general; nothing
here is about the directory that a pattern stands in.
-/
namespace SourceBundle.Glob

/-- How patterns are read: which texts are patterns, and which names a component matches that is not
made of two stars. -/
structure Language where
  Valid : String → Prop
  Matches : String → String → Prop

variable {L : Language} {component x : String} {front rest components names : List String}

/-- The component is made of two stars. -/
def isDepth (component : String) : Bool := component = "**"

theorem isDepth_of_plain (h : Plain component.toList) : isDepth component = false := by
  refine decide_eq_false fun heq => ?_
  subst heq
  exact (h '*' (by decide)).2.1 rfl

namespace Language

/-- The names go along the components, one name for each. Two stars stand for any directories, or
for none, and something has to follow them. By wildcards no other names are met than entries of a
directory have. -/
inductive Goes (L : Language) : List String → List String → Prop
  | nil : L.Goes [] []
  | name {component x : String} {components names : List String} (hc : component ≠ "**")
      (hx : L.Matches component x) (hn : Plain component.toList ∨ Path.IsName x)
      (h : L.Goes components names) : L.Goes (component :: components) (x :: names)
  | skip {components names : List String} (hne : components ≠ []) (h : L.Goes components names) :
      L.Goes ("**" :: components) names
  | deeper {x : String} {components names : List String} (hn : Path.IsName x)
      (h : L.Goes ("**" :: components) names) : L.Goes ("**" :: components) (x :: names)

/-- Plain text stands for itself. -/
def Literal (L : Language) : Prop :=
  ∀ component, Plain component.toList → ∀ x, L.Matches component x ↔ x = component

theorem Goes.ne_nil (h : L.Goes components names) (hne : components ≠ []) : names ≠ [] := by
  induction h with
  | nil => exact absurd rfl hne
  | name => exact List.cons_ne_nil _ _
  | skip hrest _ ih => exact ih hrest
  | deeper => exact List.cons_ne_nil _ _

theorem Goes.matches_of_singleton (h : L.Goes [component] [x]) (hc : component ≠ "**") :
    L.Matches component x := by
  cases h with
  | name _ hx => exact hx
  | skip => exact absurd rfl hc
  | deeper => exact absurd rfl hc

/-- Plain steps in front are gone by themselves. -/
theorem Literal.goes_append_iff (hL : L.Literal) (hf : ∀ step ∈ front, Plain step.toList) :
    L.Goes (front ++ rest) names ↔ ∃ more, names = front ++ more ∧ L.Goes rest more := by
  induction front generalizing names with
  | nil => simp
  | cons step front ih =>
    obtain ⟨hstep, hfront⟩ := List.forall_mem_cons.mp hf
    have hdeep : step ≠ "**" := of_decide_eq_false (isDepth_of_plain hstep)
    constructor
    · intro h
      cases h with
      | name hc hx hn h =>
        obtain rfl := (hL step hstep _).mp hx
        obtain ⟨more, rfl, hmore⟩ := (ih hfront).mp h
        exact ⟨more, rfl, hmore⟩
      | skip => exact absurd rfl hdeep
      | deeper => exact absurd rfl hdeep
    · rintro ⟨more, rfl, hmore⟩
      have hself : L.Matches step step := (hL step hstep step).mpr rfl
      exact .name hdeep hself (Or.inl hstep) ((ih hfront).mpr ⟨more, rfl, hmore⟩)

theorem Literal.named_of_goes (hL : L.Literal) (hr : Location.Named rest) (h : L.Goes rest names) :
    Location.Named names := by
  induction h with
  | nil => exact hr
  | name hc hx hn _ ih =>
    obtain ⟨hcomponent, hr⟩ := List.forall_mem_cons.mp hr
    refine List.forall_mem_cons.mpr ⟨?_, ih hr⟩
    rcases hn with hplain | hname
    · exact (hL _ hplain _).mp hx ▸ hcomponent
    · exact hname
  | skip _ _ ih => exact ih (List.forall_mem_cons.mp hr).2
  | deeper hn _ ih => exact List.forall_mem_cons.mpr ⟨hn, ih hr⟩

/-- A component that begins with a dot matches none of the dot names. -/
def Dotless (L : Language) (component : String) : Prop :=
  component.toList.head? = some '.' → ¬L.Matches component "." ∧ ¬L.Matches component ".."

/-- A pattern that starts with plain steps and goes on with names. Among these only the last may
match a dot name. -/
structure Regular (L : Language) (pattern : String) (front rest : List String) : Prop where
  split : (Glob.components (body pattern)).map String.ofList = front ++ rest
  plain : ∀ step ∈ front, Plain step.toList
  lasting : Lasting (root pattern) front
  ne_nil : rest ≠ []
  named : Location.Named rest
  dotless : ∀ component ∈ rest.dropLast, L.Dotless component

end Language

/-! ## The order of what is found -/

/-- At most one component follows the first deep ones. -/
def Tidy {α : Type} (deep : α → Bool) (components : List α) : Prop :=
  ((components.dropWhile fun component => !deep component).dropWhile deep).length ≤ 1

variable {α β : Type} {deep : α → Bool}

theorem tidy_nil : Tidy deep [] := Nat.zero_le _

theorem tidy_cons_iff {c : α} {cs : List α} (hc : deep c = false) :
    Tidy deep (c :: cs) ↔ Tidy deep cs := by
  rw [Tidy, List.dropWhile_cons_of_pos (by rw [hc]; rfl), Tidy]

theorem tidy_deep_iff {c : α} {cs : List α} (hc : deep c = true) :
    Tidy deep (c :: cs) ↔ (cs.dropWhile deep).length ≤ 1 := by
  rw [Tidy, List.dropWhile_cons_of_neg (by rw [hc]; decide), List.dropWhile_cons_of_pos hc]

theorem tidy_map_iff {f : β → α} {cs : List β} :
    Tidy deep (cs.map f) ↔ Tidy (fun c => deep (f c)) cs := by
  simp only [Tidy, List.dropWhile_map, List.length_map]
  rfl

theorem tidy_congr {deep' : α → Bool} {cs : List α} (h : ∀ c ∈ cs, deep' c = deep c) :
    Tidy deep' cs ↔ Tidy deep cs := by
  have hmap : cs.map deep' = cs.map deep := List.map_congr_left h
  have hid : ∀ deep : α → Bool, Tidy deep cs ↔ Tidy id (cs.map deep) := fun deep =>
    (@tidy_map_iff Bool α id deep cs).symm
  rw [hid, hid, hmap]

theorem tidy_append_iff {cs more : List α} (h : ∀ c ∈ cs, deep c = false) :
    Tidy deep (cs ++ more) ↔ Tidy deep more := by
  induction cs with
  | nil => rfl
  | cons c cs ih =>
    obtain ⟨hc, h⟩ := List.forall_mem_cons.mp h
    rw [List.cons_append, tidy_cons_iff hc, ih h]

/-! ## Laws -/

/-- The files among the paths that are found are those at the end of the names that go along the
components. A slash at the end asks for directories. -/
structure Finds (w : Workspace) (L : Language) (pattern : String) (components : List String)
    (found : List String) (places : List (List String)) : Prop where
  paths : found.filter (w.isFile ·) = places.map (below (root pattern))
  mem_iff : ∀ names, names ∈ places ↔ L.Goes components names ∧
    pattern.toList.getLast? ≠ some '/' ∧ w.isFile (below (root pattern) names) = true
  sorted : Tidy isDepth components → places.Pairwise (· < ·)

/-- What is promised of an expander by its language. -/
structure Laws [Expander] (L : Language) : Prop where
  literal : L.Literal
  /-- Plain text up to a slash may stand in front of a pattern. -/
  front : ∀ front input : String, Plain front.toList → front.toList.getLast? = some '/' →
    Path.isAbsolute input = false → L.Valid input → L.Valid (front ++ input)
  /-- A pattern is expanded without a fault, to the paths that it stands for. -/
  finds : ∀ (w : Workspace) (pattern : String), w.files.Proper → L.Valid pattern →
    ∃ found : List String, Expander.expand w pattern = .ok (found.map .ok) ∧
      ∀ front rest, L.Regular pattern front rest →
        ∃ places, Finds w L pattern (front ++ rest) found places

end SourceBundle.Glob
