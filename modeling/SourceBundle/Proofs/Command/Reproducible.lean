import SourceBundle.Proofs.Command.Again
import SourceBundle.Proofs.Command.Combine
import SourceBundle.Proofs.FileSystem.Parents
import SourceBundle.Proofs.Plan.Unchanged

/-! # Runs can be repeated

A plan depends on the files of its registry only. A run whose output path leads to another file
replaces what that file holds and makes nothing else, so the same run finds the same plan
afterwards and leaves the same files.
-/
namespace SourceBundle

open Text.Utf8 (Octets)
open FileSystem (Change Extends Rewritten)

variable {w : Workspace} {files gs : FileSystem} {path : String} {l : Location}
  {octets old : Octets}

namespace Workspace

/-- A file is put where its path leads. -/
theorem writeFile_inv (h : w.writeFile path octets = .ok files) (hc : w.canonical path = .ok l) :
    w.fileToCreate path = .ok l ∧ files = w.files.insert l (.file octets) := by
  obtain ⟨m, hm, hfiles⟩ := bind_ok h
  cases hfiles
  obtain ⟨-, -, -, -, hlocate⟩ := fileToCreate_eq_ok_iff.mp hm
  obtain rfl := Except.ok.inj ((canonical_eq_ok_iff.mp hc).2.locate_eq.symm.trans hlocate)
  exact ⟨hm, rfl⟩

theorem find?_writeFile (h : w.writeFile path octets = .ok files) (hc : w.canonical path = .ok l) :
    files.find? l = some (.file octets) ∧ ∀ m, m ≠ l → files.find? m = w.files.find? m := by
  obtain ⟨hl, rfl⟩ := writeFile_inv h hc
  obtain ⟨-, -, -, hdir, -⟩ := fileToCreate_eq_ok_iff.mp hl
  have hne : l ≠ [] := FileSystem.ne_nil_of_find? hdir
  exact ⟨FileSystem.find?_insert_self hne, fun m hm => FileSystem.find?_insert_of_ne hm⟩

/-- Putting the same file again changes nothing. -/
theorem writeFile_again (h : w.writeFile path octets = .ok files) (hc : w.canonical path = .ok l) :
    writeFile ⟨files, w.current⟩ path octets = .ok files := by
  obtain ⟨hl, rfl⟩ := writeFile_inv h hc
  obtain ⟨ha, hpath, hslash, hdir, -⟩ := fileToCreate_eq_ok_iff.mp hl
  obtain ⟨m, hput⟩ := exists_put h
  obtain rfl := hput.same l hc
  have hfile : (w.files.insert l (.file octets)).find? l ≠ some .directory := by
    rw [(find?_writeFile h hc).1]
    exact fun he => by cases he
  have hagain : fileToCreate ⟨w.files.insert l (.file octets), w.current⟩ path = .ok l :=
    fileToCreate_eq_ok_iff.mpr
      ⟨ha, hpath, hslash, hfile, (canonical_eq_ok_iff.mp hput.canonical).2.locate_eq⟩
  rw [writeFile, hagain]
  exact congrArg Except.ok (FileSystem.insert_insert w.files l _ _)

end Workspace

namespace Command

/-- Above a path that leads somewhere nothing is made, and the making fails only where what is there
is no directory. -/
theorem makeParents_of_canonical (h : w.canonical path = .ok l) :
    (makeParents w path).1 = w.files ∧ ((makeParents w path).2 = none ↔
      ∀ parent, Path.parent? path = some parent → parent ≠ "" → w.isDirectory parent = true) := by
  unfold makeParents
  split
  · rename_i hp
    refine ⟨rfl, iff_of_true rfl fun parent hparent _ => ?_⟩
    rw [hp] at hparent
    cases hparent
  · rename_i hp
    refine ⟨rfl, iff_of_true rfl fun parent hparent hne => ?_⟩
    rw [hp] at hparent
    exact absurd (Option.some.inj hparent).symm hne
  · rename_i parent hne hp
    obtain ⟨m, hm⟩ := Workspace.canonical_parent h hp hne
    obtain ⟨fault, hmade⟩ := Workspace.createDirectories_of_canonical hm
    have hiff : w.isDirectory parent = true ↔ ∀ parent, Path.parent? path = some parent →
        parent ≠ "" → w.isDirectory parent = true := by
      refine ⟨fun hd other hother _ => ?_, fun hall => hall parent hp hne⟩
      rw [hp] at hother
      exact Option.some.inj hother ▸ hd
    rw [hmade, ← hiff]
    refine ⟨rfl, ?_⟩
    cases w.isDirectory parent with
    | true => exact iff_of_true rfl rfl
    | false => exact iff_of_false (Option.some_ne_none _) Bool.false_ne_true

theorem makeParents_again (h : w.canonical path = .ok l) (hm : (makeParents w path).2 = none)
    (hg : Extends w.files gs) : makeParents ⟨gs, w.current⟩ path = (gs, none) := by
  obtain ⟨-, hnone⟩ := makeParents_of_canonical h
  obtain ⟨hfiles, hnone'⟩ := makeParents_of_canonical (Workspace.canonical_mono h hg)
  refine Prod.ext hfiles (hnone'.mpr fun parent hp hne => ?_)
  exact Workspace.isDirectory_mono (hnone.mp hm parent hp hne) hg

/-- Where the output path leads somewhere, a run writes one file or nothing at all. -/
theorem writeFile_cases (p : Plan) (h : w.canonical path = .ok l) :
    (writeFile w p path).files = w.files ∨ (makeParents w path).2 = none ∧
      Workspace.writeFile w path (p.writeTo {}).sink.received = .ok (writeFile w p path).files := by
  obtain ⟨hfiles, -⟩ := makeParents_of_canonical h
  have heta : makeParents w path = (w.files, (makeParents w path).2) := Prod.ext hfiles rfl
  unfold writeFile
  rw [heta]
  cases (makeParents w path).2 with
  | some report => exact Or.inl rfl
  | none =>
    simp only
    cases hw : Workspace.writeFile ⟨w.files, w.current⟩ path (p.writeTo {}).sink.received with
    | error fault => exact Or.inl rfl
    | ok files => exact Or.inr ⟨trivial, rfl⟩

/-- The file that the output path leads to may get other octets, and nothing else changes. -/
theorem writeFile_frame (p : Plan) (h : w.canonical path = .ok l)
    (hold : w.files.find? l = some (.file old)) :
    Rewritten l w.files (writeFile w p path).files := by
  rcases writeFile_cases p h with hsame | ⟨-, hw⟩
  · rw [hsame]
    exact .refl l w.files
  · obtain ⟨hnew, hothers⟩ := Workspace.find?_writeFile hw h
    exact FileSystem.rewritten_of_overwrite hold hnew hothers

theorem writeFile_again (p : Plan) (h : w.canonical path = .ok l)
    (hold : w.files.find? l = some (.file old)) :
    writeFile ⟨(writeFile w p path).files, w.current⟩ p path = writeFile w p path := by
  have hextends := (writeFile_frame p h hold).forth
  rcases writeFile_cases p h with hsame | ⟨hnone, hw⟩
  · rw [hsame]
  · generalize (writeFile w p path).files = files at hw hextends ⊢
    have hagain := makeParents_again h hnone hextends
    have hfirst : makeParents w path = (w.files, none) :=
      Prod.ext (makeParents_of_canonical h).1 hnone
    simp only [writeFile, hagain, hfirst, Workspace.writeFile_again hw h, hw]

/-- Plans the given files and writes what comes of it to a path. -/
def combineInto (w : Workspace) (o : Options) (paths : List String) (path : String) : Performed :=
  withPlan w o paths fun plan => writeFile w plan path

/-- Where only a file outside the registry holds other octets, the same is planned. -/
theorem planPaths_of_rewritten {o : Options} {entries paths : List String} {p : Plan}
    (h : (plan w o entries).value = .ok p) (hf : Rewritten l w.files gs)
    (hl : l ∉ p.registry.locations)
    (hentries : (Discovery.filterEntries w paths).value = entries) :
    planPaths ⟨gs, w.current⟩ o paths = planPaths w o paths ∧
      (planPaths w o paths).value = .ok p := by
  have hkept := Discovery.filterEntries_congr hf.forth hf.back paths
  have hplan := Plan.plan_eq_of_keeps h
    ⟨hf.forth, fun m hm e he => (hf.others m fun heq => hl (heq ▸ hm)).trans he⟩
  refine ⟨?_, ?_⟩
  · rw [planPaths, planPaths, hkept, hentries, hplan]
  · rw [planPaths, hentries]
    exact h

/-- The command line asks for these entries to be combined. The output path leads to a file that is
there and that neither the plan nor the project comes from. -/
inductive Rebuilds [Project.Decoder] [Glob.Expander] [Reader] (w : Workspace)
    (environment : Environment) (args : List String) (o : Options) (entries : List String)
    (kept : List Location) : Prop
  | combine (r : Request) (a : InputArguments) (output : Option String) (separator : Bool)
      (project : Option Project) (inputs : Resolved) (path : String) (l : Location)
      (old : Octets) (hr : Reader.read environment.config args = .ok r)
      (ht : r.task = .combine a output separator)
      (hp : (a.loadProject w).value = .ok project) (hi : (a.resolve w).value = .ok inputs)
      (ho : inputs.combining separator = o)
      (he : (Discovery.filterEntries w inputs.files).value = entries)
      (hpath : output.or inputs.output = some path) (hc : w.canonical path = .ok l)
      (hold : w.files.find? l = some (.file old)) (hl : l ∉ kept) (ha : a.Apart w project l)

theorem run_again [Project.Decoder] [Glob.Expander] [Reader] (hs : Glob.Steady)
    {environment : Environment} {args : List String} {o : Options} {entries : List String}
    {p : Plan} (h : (plan w o entries).value = .ok p)
    (hb : Rebuilds w environment args o entries p.registry.locations) :
    run ⟨(run w environment args).files, w.current⟩ environment args =
      run w environment args := by
  obtain ⟨r, a, output, separator, project, inputs, path, l, old, hr, ht, hp, hi, rfl, he, hpath,
    hc, hold, hl, ha⟩ := hb
  have hframe := writeFile_frame p hc hold
  obtain ⟨hagain, hvalue⟩ := planPaths_of_rewritten h hframe hl he
  have hresolve := InputArguments.resolve_of_rewritten hs hframe hp ha
  have hperform : ∀ w : Workspace, perform w r.task =
      combineTo w a separator fun inputs => output.or inputs.output := by
    intro w
    rw [ht, perform, combine_eq_combineTo]
  have hfiles : (run w environment args).files = (writeFile w p path).files := by
    rw [(run_of_request w environment hr).1, hperform, (combineTo_ok _ hi hvalue).2]
    simp only [hpath]
  have hsame : perform ⟨(writeFile w p path).files, w.current⟩ r.task = perform w r.task := by
    rw [hperform, hperform]
    simp only [combineTo, withInputs, hresolve, hi, withPlan, hagain, hvalue, hpath,
      writeFile_again p hc hold]
  rw [hfiles]
  simp only [run, hr, execute, hsame]

/-- Changes outside the registry of a plan leave the plan and every output of it as they are. So a
run whose output path leads to another file can be run again: it reports the same and leaves the
same files. -/
theorem combine_reproducible (w : Workspace) (o : Options) (entries : List String) (p : Plan)
    (h : (plan w o entries).value = .ok p) :
    (∀ files, Relation.ReflTransGen (Change p.registry.locations) w.files files →
      (plan ⟨files, w.current⟩ o entries).value = .ok p ∧
        ∀ sink, SourceBundle.combine ⟨files, w.current⟩ o entries sink =
          SourceBundle.combine w o entries sink) ∧
    (∀ paths path l old, (Discovery.filterEntries w paths).value = entries →
      w.canonical path = .ok l → w.files.find? l = some (.file old) →
      l ∉ p.registry.locations →
        combineInto ⟨(combineInto w o paths path).files, w.current⟩ o paths path =
          combineInto w o paths path) ∧
    ∀ [Project.Decoder] [Glob.Expander] [Reader], Glob.Steady → ∀ environment args,
      Rebuilds w environment args o entries p.registry.locations →
        run ⟨(run w environment args).files, w.current⟩ environment args =
          run w environment args := by
  refine ⟨fun files hfiles => ?_, fun paths path l old hentries hc hold hl => ?_,
    fun hs environment args hb => run_again hs h hb⟩
  · have hplan := Plan.plan_eq_of_keeps h (FileSystem.keeps_of_changes hfiles)
    refine ⟨hplan ▸ h, fun sink => ?_⟩
    rw [SourceBundle.combine, SourceBundle.combine, hplan]
  · obtain ⟨hagain, hvalue⟩ := planPaths_of_rewritten h (writeFile_frame p hc hold) hl hentries
    have hfiles : (combineInto w o paths path).files = (writeFile w p path).files :=
      (withPlan_ok hvalue).2
    rw [hfiles]
    simp only [combineInto, withPlan, hagain, hvalue, writeFile_again p hc hold]

/-! ## An output of an earlier run -/

/-- The letters and the output of an earlier run. -/
def lettersBuilt : Workspace :=
  ⟨Discovery.letters.files.insert ["o"] (.file (Text.Utf8.encode "yx".toList)), []⟩

theorem filterEntries_lettersBuilt :
    (Discovery.filterEntries lettersBuilt ["a"]).value = ["a"] := by
  cbv

theorem canonical_lettersBuilt : lettersBuilt.canonical "o" = .ok ["o"] := by cbv

theorem find?_lettersBuilt :
    lettersBuilt.files.find? ["o"] = some (.file (Text.Utf8.encode "yx".toList)) := by
  cbv

theorem resolve_lettersBuilt : (InputArguments.resolve lettersBuilt { files := ["a"] }).value =
    .ok ⟨["a"], {}, none⟩ := by
  have hfile : lettersBuilt.isFile "a" = true := by cbv
  have hproject : InputArguments.withProject lettersBuilt { files := ["a"] } none =
      .ok ⟨["a"], {}, none⟩ := by
    simp [InputArguments.withProject, InputArguments.options, hfile, bind, Except.bind, pure,
      Except.pure]
  exact hproject

/-- The first run replaces the earlier output, the second one changes nothing. -/
theorem letters_reproduced :
    (plan Discovery.letters {} ["a"]).value = .ok Plan.lettersPlan ∧
      Relation.ReflTransGen (Change Plan.lettersPlan.registry.locations)
        Discovery.letters.files lettersBuilt.files ∧
      (plan lettersBuilt {} ["a"]).value = .ok Plan.lettersPlan ∧
      Workspace.read ⟨(combineInto lettersBuilt {} ["a"] "o").files, []⟩ "o" =
        .ok (Text.Utf8.encode "zyx".toList) ∧
      combineInto ⟨(combineInto lettersBuilt {} ["a"] "o").files, []⟩ {} ["a"] "o" =
        combineInto lettersBuilt {} ["a"] "o" ∧
      (run lettersBuilt {} ["combine", "-o", "o", "a"]).code = 0 ∧
      (run lettersBuilt {} ["combine", "-o", "o", "a"]).files =
        (combineInto lettersBuilt {} ["a"] "o").files ∧
      run ⟨(run lettersBuilt {} ["combine", "-o", "o", "a"]).files, []⟩ {}
          ["combine", "-o", "o", "a"] =
        run lettersBuilt {} ["combine", "-o", "o", "a"] := by
  have hbuilt : Relation.ReflTransGen (Change Plan.lettersPlan.registry.locations)
      Discovery.letters.files lettersBuilt.files :=
    .single (.create ["o"] _ (by cbv) (by cbv) fun m hm => FileSystem.find?_insert_of_ne hm)
  have hplan := ((combine_reproducible Discovery.letters {} ["a"] Plan.lettersPlan
    Plan.plan_letters).1 lettersBuilt.files hbuilt).1
  obtain ⟨-, hinto, hrun⟩ := combine_reproducible lettersBuilt {} ["a"] Plan.lettersPlan hplan
  have hagain := hinto ["a"] "o" ["o"] _ filterEntries_lettersBuilt canonical_lettersBuilt
    find?_lettersBuilt (by decide)
  have hparents : makeParents lettersBuilt "o" = (lettersBuilt.files, none) := by cbv
  have hcreate : Workspace.fileToCreate ⟨lettersBuilt.files, lettersBuilt.current⟩ "o" =
      .ok ["o"] := by
    cbv
  have hwrite : (writeFile lettersBuilt Plan.lettersPlan "o").result = .ok [] := by
    simp only [writeFile, hparents, Workspace.writeFile, hcreate]
    rfl
  have hvalue : (planPaths lettersBuilt {} ["a"]).value = .ok Plan.lettersPlan := by
    rw [planPaths, filterEntries_lettersBuilt]
    exact hplan
  have hfiles : (combineInto lettersBuilt {} ["a"] "o").files =
      (writeFile lettersBuilt Plan.lettersPlan "o").files := (withPlan_ok hvalue).2
  have hbytes : (Plan.lettersPlan.writeTo {}).sink.received = Text.Utf8.encode "zyx".toList := by
    decide
  have hr : Reader.read none ["combine", "-o", "o", "a"] =
      .ok ⟨"warn", .combine { files := ["a"] } (some "o") false⟩ := by
    cbv
  have hbuilds : Rebuilds lettersBuilt {} ["combine", "-o", "o", "a"] {} ["a"]
      Plan.lettersPlan.registry.locations :=
    .combine _ _ _ _ none _ "o" ["o"] _ hr rfl rfl resolve_lettersBuilt rfl
      filterEntries_lettersBuilt rfl canonical_lettersBuilt find?_lettersBuilt (by decide)
      (Or.inl rfl)
  obtain ⟨hresult, hleft⟩ := combineTo_ok (fun inputs => (some "o").or inputs.output)
    resolve_lettersBuilt hvalue
  obtain ⟨hsame, -, hok⟩ := run_of_request lettersBuilt {} hr
  refine ⟨Plan.plan_letters, hbuilt, hplan, ?_, hagain, ((hok []).mp (hresult.trans hwrite)).1,
    (hsame.trans hleft).trans hfiles.symm, hrun Glob.steady {} _ hbuilds⟩
  rw [hfiles, ← hbytes]
  exact (written_of_ok hwrite).2.read

end Command

end SourceBundle
