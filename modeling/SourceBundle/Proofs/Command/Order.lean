import SourceBundle.Proofs.Command.Combine
import SourceBundle.Proofs.Emission
import SourceBundle.Proofs.FileSystem.Names
import SourceBundle.Proofs.Listing
import SourceBundle.Proofs.Order

/-! # The listing of an order and the combine run that it announces

An order run and a combine run over the same inputs plan the same files. What is listed is what is
written, path by path, and whatever a listed file declares besides itself is listed before it.
-/
namespace SourceBundle

variable {w : Workspace} {o o' : Options} {starts : List Location} {entries : List String}
  {p : Plan} {i j : SourceId}

theorem getElem?_filterMap_of_isSome {α β : Type} {f : α → Option β} {xs : List α}
    (h : ∀ x ∈ xs, (f x).isSome = true) (k : Nat) : (xs.filterMap f)[k]? = xs[k]?.bind f := by
  induction xs generalizing k with
  | nil => rfl
  | cons x xs ih =>
    obtain ⟨hx, hxs⟩ := List.forall_mem_cons.mp h
    obtain ⟨y, hy⟩ := Option.isSome_iff_exists.mp hx
    rw [List.filterMap_cons_some hy]
    cases k with
    | zero => exact hy.symm
    | succ k => exact ih hxs k

/-! ## The paths of a plan -/

namespace Discovery.Complete

variable {charset : Charset} {r : Registry} {l : Location}

theorem named (h : Complete w charset starts r) (hs : entries.map w.canonical = starts.map .ok)
    (hw : w.current.Named) (hl : l ∈ r.locations) : l.Named := by
  obtain ⟨entry, -, start, hentry, hreach⟩ := (h.mem_locations_iff hs).mp hl
  rcases Relation.ReflTransGen.cases_tail hreach with rfl | ⟨m, -, hm⟩
  · exact Workspace.named_of_canonical hw hentry
  · obtain ⟨reference, -, ht⟩ := List.mem_filterMap.mp hm
    cases hc : w.target m reference with
    | error fault =>
      rw [hc] at ht
      cases ht
    | ok l' =>
      rw [hc] at ht
      cases ht
      exact Workspace.named_of_canonical hw hc

end Discovery.Complete

namespace Plan

namespace Planned

theorem nodup_order (h : Planned w o starts p) : p.order.Nodup :=
  h.order ▸ (Graph.nodup_order _).filter _

theorem lt_size (h : Planned w o starts p) (hi : i ∈ p.order) : i < p.registry.size := by
  rw [h.order] at hi
  rw [← Graph.size_ofRegistry]
  exact Graph.mem_order.mp (List.mem_of_mem_filter hi)

theorem nodup_sources (h : Planned w o starts p) : (p.sources.map Source.location).Nodup := by
  rw [map_location_sources]
  apply List.Nodup.filterMap _ h.nodup_order
  intro i j l hi hj
  exact Registry.eq_of_location? hi hj

/-- Paths differ in their texts as the places that they lead to differ. -/
theorem nodup_paths (h : Planned w o starts p) (hs : entries.map w.canonical = starts.map .ok)
    (hw : w.current.Named) : (p.sources.map Source.path).Nodup := by
  have hpath : p.sources.map Source.path = (p.sources.map Source.location).map Location.text := by
    rw [List.map_map]
    rfl
  have hnamed : ∀ l ∈ p.sources.map Source.location, l.Named := by
    intro l hl
    rw [map_location_sources] at hl
    obtain ⟨i, -, hi⟩ := List.mem_filterMap.mp hl
    exact h.complete.named hs hw (List.mem_of_getElem? hi)
  rw [hpath]
  refine List.Nodup.map_on (fun l hl m hm he => ?_) h.nodup_sources
  exact (hnamed l hl).text_inj (hnamed m hm) he

/-- A file that is written stands behind the other files that it declares. -/
theorem order_split (h : Planned w o starts p) (hi : i ∈ p.order) (hj : p.registry.Needs i j) :
    ∃ before after, p.order = before ++ i :: after ∧ j ∈ before := by
  have hneeds : (Graph.ofRegistry p.registry).Needs i j := Registry.needs_ofRegistry _ ▸ hj
  rw [h.order] at hi ⊢
  have hlt := Graph.mem_order.mp (List.mem_of_mem_filter hi)
  have hlt' := h.complete.inRange.closed i j hneeds
  obtain ⟨before, after, he, hb⟩ := Graph.order_split h.acyclic hlt (.single hneeds)
  have hkept : keeps o (Graph.ofRegistry p.registry) j = true := by
    rw [keeps, Bool.or_eq_true, Graph.isUsed_iff (Graph.counted_ofRegistry _) hlt']
    exact Or.inr (Or.inr ⟨i, hlt, hneeds⟩)
  refine ⟨before.filter (keeps o (Graph.ofRegistry p.registry)),
    after.filter (keeps o (Graph.ofRegistry p.registry)), ?_, List.mem_filter.mpr ⟨hb, hkept⟩⟩
  rw [he, List.filter_append, List.filter_cons_of_pos (List.of_mem_filter hi)]

theorem getElem?_sources (h : Planned w o starts p) (k : Nat) :
    p.sources[k]? = p.order[k]?.bind p.registry.source? := by
  have hsome : ∀ i ∈ p.order, (p.registry.source? i).isSome = true := by
    intro i hi
    rw [Registry.source?, List.getElem?_eq_getElem (h.lt_size hi), Option.isSome_some]
  exact getElem?_filterMap_of_isSome hsome k

end Planned

/-- Plans for options that differ in separators only hold the same files. -/
theorem planPaths_congr (w : Workspace) (hc : o'.charset = o.charset)
    (he : o'.eliminateUnused = o.eliminateUnused) (files : List String) :
    (planPaths w o' files).value =
      (planPaths w o files).value.map fun p => { p with options := o' } := by
  have hkeeps : keeps o' = keeps o := by
    funext g id
    rw [keeps, keeps, he]
  simp only [planPaths]
  cases hd : (discover w o.charset (Discovery.filterEntries w files).value).value with
  | error e => rw [plan_of_discover_error hd, plan_of_discover_error (hc ▸ hd), Except.map]
  | ok d =>
    rw [plan_of_discover_ok hd, plan_of_discover_ok (hc ▸ hd), arrange_eq, arrange_eq, hkeeps]
    cases (Graph.ofRegistry d.registry).cycle? <;> rfl

end Plan

namespace Listing

open Plan (Planned)

variable {item : Item} {k : Nat}

theorem path_items (p : Plan) : (items p).map Item.path = p.sources.map Source.path := by
  rw [items, List.map_map]
  rfl

theorem getElem?_items (h : Planned w o starts p) (hk : (items p)[k]? = some item) :
    ∃ i source, p.order[k]? = some i ∧ p.registry.source? i = some source ∧
      item = ⟨source.path, source.dependencies.map p.registry.path⟩ := by
  rw [items, List.getElem?_map, h.getElem?_sources, Option.map_eq_some_iff] at hk
  obtain ⟨source, hsource, rfl⟩ := hk
  obtain ⟨i, hi, hs⟩ := Option.bind_eq_some_iff.mp hsource
  exact ⟨i, source, hi, hs, rfl⟩

/-- Whatever else an item depends on has been listed before. -/
theorem items_earlier (h : Planned w o starts p) (hk : (items p)[k]? = some item) {path : String}
    (hpath : path ∈ item.dependencies) (hne : path ≠ item.path) :
    ∃ e < k, ((items p)[e]?).map Item.path = some path := by
  obtain ⟨i, source, hi, hs, rfl⟩ := getElem?_items h hk
  obtain ⟨j, hj, rfl⟩ := List.mem_map.mp hpath
  have hneeds : p.registry.Needs i j := by
    refine ⟨by rw [Registry.dependencies, hs]; exact hj, fun hji => hne ?_⟩
    rw [hji, Registry.path, hs]
    rfl
  obtain ⟨before, after, he, hb⟩ := h.order_split (List.mem_of_getElem? hi) hneeds
  obtain ⟨e, hlt, hbe⟩ := List.mem_iff_getElem.mp hb
  have hje : p.order[e]? = some j := by
    rw [he, List.getElem?_append_left hlt, List.getElem?_eq_getElem hlt, hbe]
  have hke : k = before.length := by
    have hcut : p.order[before.length]? = some i := by simp [he]
    have hklt := (List.getElem?_eq_some_iff.mp hi).1
    exact (List.getElem?_inj hklt h.nodup_order).mp (hi.trans hcut.symm)
  refine ⟨e, hke ▸ hlt, ?_⟩
  obtain ⟨other, ho⟩ : ∃ other, p.registry.source? j = some other :=
    ⟨_, List.getElem?_eq_getElem (h.lt_size (List.mem_of_getElem? hje))⟩
  rw [items, List.getElem?_map, h.getElem?_sources, hje, Option.bind_some, ho, Registry.path, ho]
  rfl

end Listing

/-! ## Both runs -/

namespace Command

variable {a : InputArguments} {inputs : Resolved} {plan : Plan} {separator : Bool}

section Runs

variable [Project.Decoder] [Glob.Expander]

/-- The inputs of a combine run are resolved and its files are planned. -/
structure Plans (w : Workspace) (a : InputArguments) (separator : Bool) (inputs : Resolved)
    (plan : Plan) : Prop where
  resolved : (a.resolve w).value = .ok inputs
  planned : (planPaths w (inputs.combining separator) inputs.files).value = .ok plan

/-- An order run lists what a combine run has planned, and fails where that has no plan. -/
theorem order_cases (w : Workspace) (a : InputArguments) (separator json : Bool) :
    (∃ inputs plan, Plans w a separator inputs plan ∧
      (order w a json).result =
        .ok (printed (if json then Listing.json plan else Listing.text plan))) ∨
    (¬∃ inputs plan, Plans w a separator inputs plan) ∧ ∃ report,
      (order w a json).result = .error report ∧
        ∀ place, (combineTo w a separator place).result = .error report := by
  cases hi : (a.resolve w).value with
  | error report =>
    refine Or.inr ⟨?_, report, (withInputs_error hi).1, fun place => (withInputs_error hi).1⟩
    rintro ⟨inputs, plan, h⟩
    cases hi.symm.trans h.resolved
  | ok inputs =>
    have hcharset : (inputs.combining separator).charset = inputs.options.charset := rfl
    have hcongr := Plan.planPaths_congr w hcharset rfl inputs.files
    cases hp : (planPaths w inputs.options inputs.files).value with
    | error e =>
      rw [hp] at hcongr
      refine Or.inr ⟨?_, .withHint e, ?_, fun place => ?_⟩
      · rintro ⟨inputs', plan, h⟩
        cases hi.symm.trans h.resolved
        cases hcongr.symm.trans h.planned
      · exact (withInputs_ok hi).1.trans (withPlan_error hp).1
      · exact (withInputs_ok hi).1.trans (withPlan_error hcongr).1
    | ok plan =>
      rw [hp] at hcongr
      refine Or.inl ⟨inputs, { plan with options := inputs.combining separator },
        ⟨hi, hcongr⟩, ?_⟩
      exact (withInputs_ok hi).1.trans (withPlan_ok hp).1

theorem Plans.planned_of (h : Plans w a separator inputs plan) :
    ∃ starts entries, List.map w.canonical entries = starts.map Except.ok ∧
      Plan.Planned w (inputs.combining separator) starts plan := by
  obtain ⟨starts, hs, hp⟩ := Plan.plan_planned h.planned
  exact ⟨starts, _, hs, hp⟩

omit [Project.Decoder] [Glob.Expander] in
/-- What a plan writes to a sink that takes everything. -/
theorem received_writeTo (plan : Plan) : (plan.writeTo {}).sink.received =
    plan.options.charset.encode (Emission.output plan.options plan.sources) :=
  (Emission.delivered_emit plan.options {} plan.sources).received

/-- An order run succeeds if and only if the combine run over the same inputs gets through planning,
and else both fail alike. It lists the paths of the files that are written, in that order and each
once. What is printed as JSON reads as one item for each of them, and everything that an item
depends on besides itself is the path of an earlier item. -/
theorem order_consistent (w : Workspace) (a : InputArguments) (separator json : Bool)
    (hw : w.current.Named) :
    ((∃ out, (order w a json).result = .ok out) ↔
      ∃ inputs plan, Plans w a separator inputs plan) ∧
    (∀ report, (order w a json).result = .error report →
      (combine w a none separator).result = .error report) ∧
    ∀ inputs plan, Plans w a separator inputs plan →
      (order w a json).result =
        .ok (printed (if json then Listing.json plan else Listing.text plan)) ∧
      Listing.text plan = String.join ((plan.sources.map Source.path).map (· ++ "\n")) ∧
      Listing.read? (Listing.json plan).toList = some (Listing.items plan) ∧
      (Listing.items plan).map Listing.Item.path = plan.sources.map Source.path ∧
      (plan.sources.map Source.path).Nodup ∧
      (∀ source ∈ plan.sources, source.isRead = true) ∧
      (inputs.output = none → (combine w a none separator).result = .ok
        (plan.options.charset.encode (Emission.output plan.options plan.sources))) ∧
      ∀ (k : Nat) (item : Listing.Item), (Listing.items plan)[k]? = some item →
        ∀ path ∈ item.dependencies, path ≠ item.path →
          ∃ e < k, ((Listing.items plan)[e]?).map Listing.Item.path = some path := by
  have hcases := order_cases w a separator json
  refine ⟨⟨fun ⟨out, hout⟩ => ?_, fun ⟨inputs, plan, h⟩ => ?_⟩, fun report hr => ?_,
    fun inputs plan h => ?_⟩
  · rcases hcases with ⟨inputs, plan, h, -⟩ | ⟨-, report, hr, -⟩
    · exact ⟨inputs, plan, h⟩
    · cases hout.symm.trans hr
  · rcases hcases with ⟨inputs', plan', -, hout⟩ | ⟨hnone, -⟩
    · exact ⟨_, hout⟩
    · exact absurd ⟨inputs, plan, h⟩ hnone
  · rcases hcases with ⟨inputs, plan, -, hout⟩ | ⟨-, report', hr', hcombine⟩
    · cases hout.symm.trans hr
    · cases hr'.symm.trans hr
      exact hcombine fun inputs => none.or inputs.output
  · obtain ⟨starts, entries, hs, hp⟩ := h.planned_of
    refine ⟨?_, ?_, Listing.read?_json plan, Listing.path_items plan, hp.nodup_paths hs hw,
      hp.isRead, fun hnone => ?_, fun k item hk path => Listing.items_earlier hp hk⟩
    · rcases hcases with ⟨inputs', plan', h', hout⟩ | ⟨hnone, -⟩
      · cases h.resolved.symm.trans h'.resolved
        cases h.planned.symm.trans h'.planned
        exact hout
      · exact absurd ⟨inputs, plan, h⟩ hnone
    · rw [Listing.text, List.map_map]
      rfl
    · have hresult := (combineTo_ok (fun inputs => none.or inputs.output) h.resolved h.planned).1
      simp only [hnone] at hresult
      rw [combine_eq_combineTo, ← received_writeTo]
      exact hresult

end Runs

def lettersJson : String :=
  "[\n  \x7b\n    \"path\": \"/c\",\n    \"dependencies\": []\n  \x7d,\n" ++
  "  \x7b\n    \"path\": \"/b\",\n    \"dependencies\": [\n      \"/c\"\n    ]\n  \x7d,\n" ++
  "  \x7b\n    \"path\": \"/a\",\n    \"dependencies\": [\n" ++
  "      \"/c\",\n      \"/b\",\n      \"/a\"\n    ]\n  \x7d\n]\n"

/-- The file that needs the others is listed last, with itself among what it depends on. -/
theorem letters_listed : Discovery.letters.current.Named ∧
    Plans Discovery.letters { files := ["a"] } false ⟨["a"], {}, none⟩ Plan.lettersPlan ∧
    (order Discovery.letters { files := ["a"] } false).result = .ok (printed "/c\n/b\n/a\n") ∧
    (order Discovery.letters { files := ["a"] } true).result = .ok (printed lettersJson) ∧
    (combine Discovery.letters { files := ["a"] } none false).result =
      .ok (Text.Utf8.encode "zyx".toList) ∧
    Listing.read? (Listing.json Plan.lettersPlan).toList =
      some [⟨"/c", []⟩, ⟨"/b", ["/c"]⟩, ⟨"/a", ["/c", "/b", "/a"]⟩] ∧
    ∃ e < 2, ((Listing.items Plan.lettersPlan)[e]?).map Listing.Item.path = some "/b" := by
  have hw : Discovery.letters.current.Named := by decide
  have hplans : Plans Discovery.letters { files := ["a"] } false ⟨["a"], {}, none⟩
      Plan.lettersPlan := ⟨resolve_letters, planPaths_letters⟩
  have hitems : Listing.items Plan.lettersPlan =
      [⟨"/c", []⟩, ⟨"/b", ["/c"]⟩, ⟨"/a", ["/c", "/b", "/a"]⟩] := by
    decide
  have hitem : (Listing.items Plan.lettersPlan)[2]? = some ⟨"/a", ["/c", "/b", "/a"]⟩ := by
    rw [hitems]
    rfl
  have htext : Listing.text Plan.lettersPlan = "/c\n/b\n/a\n" := by decide
  have hbytes : Plan.lettersPlan.options.charset.encode
      (Emission.output Plan.lettersPlan.options Plan.lettersPlan.sources) =
        Text.Utf8.encode "zyx".toList := by
    decide
  have hjsonText : Listing.json Plan.lettersPlan = lettersJson := by decide +kernel
  obtain ⟨-, -, hlisted⟩ :=
    order_consistent Discovery.letters { files := ["a"] } false false hw
  obtain ⟨-, -, hlistedJson⟩ :=
    order_consistent Discovery.letters { files := ["a"] } false true hw
  obtain ⟨hout, -, hread, -, -, -, hprinted, hearlier⟩ := hlisted _ _ hplans
  obtain ⟨hjson, -⟩ := hlistedJson _ _ hplans
  refine ⟨hw, hplans, ?_, ?_, (hprinted rfl).trans (congrArg Except.ok hbytes),
    hread.trans (congrArg some hitems), hearlier 2 _ hitem "/b" (by decide) (by decide)⟩
  · rw [hout, ← htext]
    rfl
  · rw [hjson, ← hjsonText]
    rfl

end Command

end SourceBundle
