import SourceBundle.Proofs.Plan.Entries

/-! # Appending entries

Files that are written for some entries stand in front, in the same order, when further entries
come after these: the recursion over the directives has dealt with the first entries before it
meets the others.
-/
namespace SourceBundle

open PostOrder (Emits)

variable {w : Workspace} {o : Options} {charset : Charset} {entries more : List String}
  {starts : List Location} {sources sources' : List Source}

theorem Workspace.places_subset_append (w : Workspace) (entries more : List String) :
    w.places entries ⊆ w.places (entries ++ more) :=
  List.map_subset _ (List.subset_append_left entries more)

namespace Plan

variable {p q : Plan}

/-- Both plans keep what they keep of two recursions, one of which goes on where the other stops. -/
theorem exists_emits_append (hq : (plan w o entries).value = .ok q)
    (hp : (plan w o (entries ++ more)).value = .ok p) :
    ∃ files files' : List Location, files <+: files' ∧
      q.sources.map Source.location = files.filter (w.keeps o entries) ∧
      p.sources.map Source.location = files'.filter (w.keeps o (entries ++ more)) := by
  obtain ⟨starts, hs, hplan⟩ := plan_planned hq
  obtain ⟨starts', hs', hplan'⟩ := plan_planned hp
  obtain ⟨t, ht, hfiles⟩ := hplan.exists_emits hs
  obtain ⟨t', ht', hfiles'⟩ := hplan'.exists_emits hs'
  rw [List.map_append, hs] at hs'
  obtain ⟨front, back, rfl, hfront, -⟩ := List.map_eq_append_iff.mp hs'.symm
  obtain rfl : front = starts := List.map_injective_iff.mpr (fun _ _ => Except.ok.inj) hfront
  obtain ⟨u, hu, hut⟩ := ht'.of_append
  obtain rfl := hu.deterministic ht
  exact ⟨u.order, t'.order, hut.order_grows, hfiles, hfiles'⟩

theorem combine_received_append (hq : (plan w o entries).value = .ok q)
    (hp : (plan w o (entries ++ more)).value = .ok p)
    (h : q.sources.map Source.location <+: p.sources.map Source.location) (sink : Sink) :
    (combine w o entries sink).sink.received <+:
      (combine w o (entries ++ more) sink).sink.received := by
  obtain ⟨starts, -, hplan⟩ := plan_planned hq
  obtain ⟨starts', -, hplan'⟩ := plan_planned hp
  obtain ⟨rest, hrest⟩ := h
  rw [(delivered_combine hq sink).received, (delivered_combine hp sink).received,
    hplan.output_eq, hplan'.output_eq, ← hrest, List.flatMap_append, Charset.encode_append]
  exact (List.prefix_append_right_inj _).mpr (Sink.accepted_mono (List.prefix_append _ _))

/-- If there is a plan with further entries, there is one without. What it writes comes first in what
the longer plan writes; where unused files are dropped, the further entries may put some to use. -/
theorem plan_append (w : Workspace) (o : Options) (entries more : List String) (p : Plan)
    (h : (plan w o (entries ++ more)).value = .ok p) :
    ∃ q, (plan w o entries).value = .ok q ∧
      (o.eliminateUnused = false →
        q.sources.map Source.location <+: p.sources.map Source.location ∧
        ∀ sink, (combine w o entries sink).sink.received <+:
          (combine w o (entries ++ more) sink).sink.received) ∧
      (o.eliminateUnused = true →
        (q.sources.map Source.location).Sublist (p.sources.map Source.location)) := by
  have hsub := w.places_subset_append entries more
  obtain ⟨q, hq⟩ := plan_isOk_of_subset hsub ⟨p, h⟩
  obtain ⟨files, files', hpre, hfiles, hfiles'⟩ := exists_emits_append hq h
  refine ⟨q, hq, fun ho => ?_, fun _ => ?_⟩
  · have hall : ∀ entries, w.keeps o entries = fun _ => true := by
      intro entries
      funext l
      rw [Workspace.keeps_iff, ho]
      exact fun h => by cases h
    have hfront : q.sources.map Source.location <+: p.sources.map Source.location := by
      rw [hfiles, hfiles', hall, hall]
      exact hpre.filter _
    exact ⟨hfront, combine_received_append hq h hfront⟩
  · rw [hfiles, hfiles']
    calc
      (files.filter (w.keeps o entries)).Sublist (files.filter (w.keeps o (entries ++ more))) :=
        List.monotone_filter_right files fun l hl => Workspace.keeps_mono hsub hl
      List.Sublist _ (files'.filter (w.keeps o (entries ++ more))) := hpre.sublist.filter _

/-! ## An entry after the file that it needs -/

def pairFound : Discovered := ⟨⟨[Discovery.recordC, ⟨["b"], some ['y'], [0]⟩], by decide⟩, [0, 1]⟩

def pairPlan : Plan := ⟨pairFound, [0, 1], {}⟩

theorem plan_pair : (plan Discovery.letters {} (["c"] ++ ["b"])).value = .ok pairPlan := by
  have hentries : Discovery.enterAll Discovery.letters .empty ["c", "b"] =
      .ok (⟨[{ location := ["c"] }, { location := ["b"] }], by decide⟩, [0, 1]) := by
    cbv
  have hc : (Discovery.visit Discovery.letters .utf8
      ⟨[{ location := ["c"] }, { location := ["b"] }], by decide⟩ 0 { location := ["c"] }).value =
        .ok (⟨[Discovery.recordC, { location := ["b"] }], by decide⟩, []) := by
    cbv
  have hb : (Discovery.visit Discovery.letters .utf8
      ⟨[Discovery.recordC, { location := ["b"] }], by decide⟩ 1 { location := ["b"] }).value =
        .ok (pairFound.registry, []) := by
    cbv
  have hfound : (discover Discovery.letters .utf8 ["c", "b"]).value = .ok pairFound :=
    Discovery.discover_of_advances hentries <| .head (.read _ 0 [1] _ _ _ _ rfl rfl hc) <|
      .single (.read _ 1 [] _ _ _ _ rfl rfl hb)
  have harrange : (arrange {} pairFound).value = .ok pairPlan := by cbv
  exact (plan_of_discover_ok hfound).trans harrange

theorem pair_append : (plan Discovery.letters {} (["c"] ++ ["b"])).value = .ok pairPlan ∧
    ∃ q, (plan Discovery.letters {} ["c"]).value = .ok q ∧
      q.sources.map Source.location <+: [["c"], ["b"]] := by
  obtain ⟨q, hq, hfront, -⟩ := plan_append Discovery.letters {} ["c"] ["b"] pairPlan plan_pair
  exact ⟨plan_pair, q, hq, (hfront rfl).1⟩

end Plan

end SourceBundle
