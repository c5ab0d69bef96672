import SourceBundle.Proofs.Discovery.Run
import SourceBundle.Proofs.Log

/-! # Discovery that asks before each progress line

Here the options are asked at each point where a progress line is due, and the line is put together
only where it is wanted: the place of an entry is looked up for no other purpose. On every path,
those that end in an error too, this comes to what is found when every line is recorded, with the
lines that the options want.
-/
namespace SourceBundle

namespace Asking

open Log (tell shown_append shown_progress shown_progress_cons shown_cons_of_not_progress)
open Discovery (State)

/-- An entry with its links followed, or as it is written where it leads nowhere. -/
def absolute (w : Workspace) (entry : String) : String :=
  match w.canonical entry with
  | .ok l => l.text
  | .error _ => entry

def filterEntries (w : Workspace) (o : Options) : List String → Logged (List String)
  | [] => ⟨[], []⟩
  | entry :: rest =>
    let kept := filterEntries w o rest
    if w.isFile entry then
      ⟨entry :: kept.value,
        tell o.verbose .discovery (fun _ => "Adding file '" ++ absolute w entry ++ "'") ++ kept.log⟩
    else
      ⟨kept.value, ⟨.warn, .discovery, "Couldn't find file '" ++ entry ++ "'", false⟩ :: kept.log⟩

def link (w : Workspace) (o : Options) (source : Source) (r : Registry) :
    List String → Logged (Except Error (Registry × List SourceId))
  | [] => ⟨.ok (r, []), []⟩
  | reference :: rest =>
    let lines := tell o.verbose .discovery fun _ => "... has dependency on " ++ reference
    let target := Directive.resolve source.directory reference
    if w.isFile target then
      match r.get w target with
      | .error e => ⟨.error e, lines⟩
      | .ok (r, id) =>
        let linked := link w o source r rest
        ⟨linked.value.map fun (r, ids) => (r, id :: ids), lines ++ linked.log⟩
    else ⟨.error (.missingDependency target source.path), lines⟩

def visit (w : Workspace) (o : Options) (r : Registry) (id : SourceId) (source : Source) :
    Logged (Except Error (Registry × List SourceId)) :=
  let lines := tell o.verbose .discovery fun _ => "Processing file '" ++ source.path ++ "'"
  match w.files.read source.location with
  | .error fault => ⟨.error (.read source.path fault), lines⟩
  | .ok octets =>
    match Directive.parse source.path (o.charset.decode octets) with
    | .error e => ⟨.error e, lines⟩
    | .ok parsed =>
      let linked := link w o source r parsed.requires
      match linked.value with
      | .error e => ⟨.error e, lines ++ linked.log⟩
      | .ok (r, ids) =>
        let last := if o.verbose && ids.isEmpty then
          [Log.progress .discovery "... no dependencies found."] else []
        ⟨.ok ((r.complete id parsed.contents ids).1, ids.filter (!r.isRead ·)),
          lines ++ linked.log ++ last⟩

variable {w : Workspace} {o : Options} {r : Registry} {id : SourceId} {source : Source}

theorem filterEntries_eq (w : Workspace) (o : Options) (entries : List String) :
    filterEntries w o entries = (Discovery.filterEntries w entries).shown o.verbose := by
  induction entries with
  | nil => rfl
  | cons entry entries ih =>
    simp only [filterEntries, ih, Discovery.filterEntries, Logged.shown, List.map_cons,
      List.filter_cons]
    by_cases hf : w.isFile entry
    · simp only [if_pos hf, shown_progress_cons]
      rfl
    · simp only [if_neg hf, shown_cons_of_not_progress]

theorem link_eq (w : Workspace) (o : Options) (source : Source) (r : Registry)
    (references : List String) : link w o source r references =
      (Discovery.link w source r references).shown o.verbose := by
  induction references generalizing r with
  | nil => rfl
  | cons reference references ih =>
    simp only [link, Discovery.link]
    by_cases hf : w.isFile (Directive.resolve source.directory reference)
    · simp only [if_pos hf]
      cases r.get w (Directive.resolve source.directory reference) with
      | error e => simp only [Logged.shown, shown_progress]
      | ok p => simp only [ih, Logged.shown, shown_progress_cons]
    · simp only [if_neg hf, Logged.shown, shown_progress]

theorem visit_eq (w : Workspace) (o : Options) (r : Registry) (id : SourceId) (source : Source) :
    visit w o r id source = (Discovery.visit w o.charset r id source).shown o.verbose := by
  unfold visit Discovery.visit
  cases w.files.read source.location with
  | error fault => simp only [Logged.shown, shown_progress]
  | ok octets =>
    dsimp only
    cases Directive.parse source.path (o.charset.decode octets) with
    | error e => simp only [Logged.shown, shown_progress]
    | ok parsed =>
      simp only [link_eq]
      dsimp only [Logged.shown]
      cases (Discovery.link w source r parsed.requires).value with
      | error e => simp only [shown_progress_cons]
      | ok p =>
        have hlast : Log.shown o.verbose (if p.2.isEmpty then
              [Log.progress .discovery "... no dependencies found."] else []) =
            if o.verbose && p.2.isEmpty then
              [Log.progress .discovery "... no dependencies found."] else [] := by
          cases o.verbose <;> cases p.2.isEmpty <;> rfl
        simp only [List.cons_append, shown_progress_cons, shown_append, hlast, List.append_assoc]

/-- The worklist, without a log of its own to carry along. -/
def run (w : Workspace) (o : Options) (r : Registry) (queue : List SourceId) :
    Logged (Except Error Registry) :=
  match _hq : queue with
  | [] => ⟨.ok r, []⟩
  | id :: rest =>
    match _hs : r.source? id with
    | none => run w o r rest
    | some source =>
      if _hr : source.isRead then run w o r rest
      else
        let visited := visit w o r id source
        match _hv : visited.value with
        | .error e => ⟨.error e, visited.log⟩
        | .ok (t, ids) =>
          let later := run w o t (rest ++ ids)
          ⟨later.value, visited.log ++ later.log⟩
termination_by (Discovery.unread w.files r, queue.length)
decreasing_by
  · simp [Prod.lex_def]
  · simp [Prod.lex_def]
  · have hv : (visit w o r id source).value = .ok (t, ids) := _hv
    rw [visit_eq] at hv
    have := Discovery.unread_visit _hs (by simpa using _hr) hv
    simp [Prod.lex_def, this]

theorem run_skip {rest : List SourceId}
    (h : ∀ source, r.source? id = some source → source.isRead = true) :
    run w o r (id :: rest) = run w o r rest := by
  rw [run]
  split
  · rfl
  · rename_i source hs
    rw [dif_pos (h source hs)]

theorem run_unread (rest : List SourceId) (hs : r.source? id = some source)
    (hu : source.isRead = false) :
    run w o r (id :: rest) = match (visit w o r id source).value with
      | .error e => ⟨.error e, (visit w o r id source).log⟩
      | .ok (t, ids) => ⟨(run w o t (rest ++ ids)).value,
          (visit w o r id source).log ++ (run w o t (rest ++ ids)).log⟩ := by
  rw [run]
  split
  · rename_i hn
    rw [hs] at hn
    cases hn
  · rename_i source' hs'
    rw [hs] at hs'
    cases hs'
    rw [dif_neg (by simp [hu])]
    dsimp only
    split <;> rename_i hv
    · rw [hv]
    · rw [hv]

/-- The lines that the worklist says on the way are those shown of the lines it would record. -/
theorem shown_run (w : Workspace) (o : Options) (s : State) :
    (Discovery.run w o.charset s).shown o.verbose =
      ⟨(run w o s.registry s.queue).value,
        Log.shown o.verbose s.log.toList ++ (run w o s.registry s.queue).log⟩ := by
  induction s using Discovery.run_induction with
  | done r log => simp only [Discovery.run_nil, run, Logged.shown, List.append_nil]
  | stuck r id rest log source e hs hu he =>
    rw [Discovery.run_stuck hs hu he, run_unread rest hs hu, visit_eq]
    simp only [Logged.shown, he, shown_append]
  | advance a b h ih =>
    rw [h.run_eq, ih]
    cases h with
    | skip r id rest log h => rw [run_skip h]
    | read r id rest log source t queued hs hu hv =>
      rw [run_unread rest hs hu, visit_eq]
      simp only [Logged.shown, hv, Array.toList_appendList, shown_append, List.append_assoc]

def discover (w : Workspace) (o : Options) (entries : List String) :
    Logged (Except Error Discovered) :=
  match Discovery.enterAll w .empty entries with
  | .error e => ⟨.error e, []⟩
  | .ok (r, ids) =>
    (run w o r ids).map fun result => result.map fun registry => ⟨registry, ids.eraseDups⟩

theorem discover_eq (w : Workspace) (o : Options) (entries : List String) :
    discover w o entries = (SourceBundle.discover w o.charset entries).shown o.verbose := by
  unfold discover SourceBundle.discover
  cases Discovery.enterAll w .empty entries with
  | error e => rfl
  | ok p =>
    have hrun := shown_run w o ⟨p.1, p.2, #[]⟩
    have hvalue := congrArg Logged.value hrun
    have hlog := congrArg Logged.log hrun
    simp only [Logged.shown] at hvalue hlog
    simp only [Logged.map, Logged.shown, hvalue, hlog]
    rfl

end Asking

/-! ## Lines of other levels -/

open Log (Marked marked_nil)

namespace Discovery

variable {w : Workspace} {charset : Charset}

theorem marked_filterEntries (w : Workspace) (entries : List String) :
    Marked (filterEntries w entries).log := by
  intro line hl hp
  obtain ⟨entry, -, rfl⟩ := List.mem_map.mp hl
  split at hp <;> rename_i hf
  · rw [if_pos hf]
    rfl
  · cases hp

theorem marked_link (w : Workspace) (source : Source) (r : Registry) (references : List String) :
    Marked (link w source r references).log := by
  induction references generalizing r with
  | nil => exact marked_nil
  | cons reference references ih =>
    unfold link
    dsimp only
    split
    · split
      · exact marked_nil.cons_progress _ _
      · exact (ih _).cons_progress _ _
    · exact marked_nil.cons_progress _ _

theorem marked_visit (w : Workspace) (charset : Charset) (r : Registry) (id : SourceId)
    (source : Source) : Marked (visit w charset r id source).log := by
  unfold visit
  dsimp only
  split
  · exact marked_nil.cons_progress _ _
  · split
    · exact marked_nil.cons_progress _ _
    · split
      · exact (marked_link _ _ _ _).cons_progress _ _
      · refine ((marked_link _ _ _ _).append ?_).cons_progress _ _
        split
        · exact marked_nil.cons_progress _ _
        · exact marked_nil

theorem marked_run {s : State} (h : Marked s.log.toList) : Marked (run w charset s).log := by
  induction s using run_induction with
  | done r log =>
    rw [run_nil]
    exact h
  | stuck r id rest log source e hs hu he =>
    rw [run_stuck hs hu he]
    exact h.append (marked_visit _ _ _ _ _)
  | advance a b ha ih =>
    rw [ha.run_eq]
    apply ih
    cases ha with
    | skip r id rest log _ => exact h
    | read r id rest log source t queued _ _ _ =>
      rw [Array.toList_appendList]
      exact h.append (marked_visit _ _ _ _ _)

theorem marked_discover (w : Workspace) (charset : Charset) (entries : List String) :
    Marked (discover w charset entries).log := by
  unfold discover
  split
  · exact marked_nil
  · exact marked_run marked_nil

end Discovery

end SourceBundle
