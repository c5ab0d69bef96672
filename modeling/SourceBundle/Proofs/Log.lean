import SourceBundle.Log

/-! # Lines that are wanted

What a run shows of the lines that it records. Progress lines are of level info, all of them, so the
lines of the other levels are the same whether progress is wanted or not.
-/
namespace SourceBundle

namespace Log

/-- A progress line where it is wanted; only then is its text asked for. -/
def tell (verbose : Bool) (origin : Origin) (message : Unit → String) : List Line :=
  if verbose then [progress origin (message ())] else []

variable {verbose : Bool} {lines more : List Line} {line : Line}

theorem shown_append (verbose : Bool) (lines more : List Line) :
    shown verbose (lines ++ more) = shown verbose lines ++ shown verbose more :=
  List.filter_append ..

theorem shown_progress_cons (verbose : Bool) (origin : Origin) (message : String)
    (lines : List Line) : shown verbose (progress origin message :: lines) =
      tell verbose origin (fun _ => message) ++ shown verbose lines := by
  cases verbose <;> rfl

theorem shown_progress (verbose : Bool) (origin : Origin) (message : String) :
    shown verbose [progress origin message] = tell verbose origin fun _ => message := by
  cases verbose <;> rfl

theorem shown_cons_of_not_progress (h : line.progress = false) :
    shown verbose (line :: lines) = line :: shown verbose lines :=
  List.filter_cons_of_pos (by rw [h, Bool.not_false, Bool.or_true])

theorem shown_of_not_progress (h : ∀ line ∈ lines, line.progress = false) :
    shown verbose lines = lines :=
  List.filter_eq_self.mpr fun line hl => by rw [h line hl, Bool.not_false, Bool.or_true]

/-! ## Lines of other levels -/

/-- Every progress line is of level info. -/
def Marked (lines : List Line) : Prop := ∀ line ∈ lines, line.progress = true → line.level = .info

/-- The lines of all other levels. -/
def lasting (lines : List Line) : List Line := lines.filter (·.level ≠ .info)

theorem marked_nil : Marked [] := List.forall_mem_nil _

theorem Marked.append (h : Marked lines) (hm : Marked more) : Marked (lines ++ more) :=
  List.forall_mem_append.mpr ⟨h, hm⟩

theorem Marked.cons_progress (h : Marked lines) (origin : Origin) (message : String) :
    Marked (progress origin message :: lines) :=
  List.forall_mem_cons.mpr ⟨fun _ => rfl, h⟩

theorem marked_of_not_progress (h : ∀ line ∈ lines, line.progress = false) : Marked lines :=
  fun line hl hp => absurd hp (by rw [h line hl]; exact Bool.false_ne_true)

/-- What is wanted of the lines of other levels does not depend on whether progress is. -/
theorem Marked.lasting_shown (h : Marked lines) :
    lasting (shown verbose lines) = lasting lines := by
  rw [lasting, shown, List.filter_filter]
  refine List.filter_congr fun line hl => ?_
  cases hp : line.progress with
  | false => rw [Bool.not_false, Bool.or_true, Bool.and_true]
  | true => rw [h line hl hp, decide_eq_false (not_not_intro rfl), Bool.false_and]

end Log

/-- A result with the lines that are wanted of those recorded on the way to it. -/
def Logged.shown {α : Type} (verbose : Bool) (x : Logged α) : Logged α :=
  ⟨x.value, Log.shown verbose x.log⟩

end SourceBundle
