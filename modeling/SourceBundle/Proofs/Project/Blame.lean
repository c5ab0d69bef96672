import SourceBundle.Proofs.Outcome
import SourceBundle.Proofs.Project.Messages

/-! # What a project file is rejected for

What is said of a text that is rejected follows from what it is rejected for, up to the path and
what the message quotes. Beside the reader of project files stands one that goes the same way and
also tells which step it stopped at; it keeps to that.
-/
namespace SourceBundle.Project

open Yaml (Document Item Mark Scalar)

/-- What a text is rejected for. -/
inductive Blame where
  /-- The text is no document, or not one alone. -/
  | text
  /-- The document is no mapping. -/
  | whole
  /-- A key is no text. -/
  | key
  | unknownKey
  | repeatedKey (name : String)
  /-- The value that is given for a field. -/
  | value (field : String)
deriving DecidableEq, Repr

/-- The path of a value, or of an item in it. -/
def Within (path inner : String) : Prop :=
  inner = path ∨ ∃ index : Nat, inner = path ++ "[" ++ toString index ++ "]"

/-- The path told with the value of a field: its name or `?`, where the key is an alias, or none at
all; an item of the inputs is told with its index. -/
def Placed (name path : String) : Prop :=
  path = "" ∨ path = name ∨ path = "?" ∨ name = "inputs" ∧ (Within name path ∨ Within "?" path)

/-- What is said of a text that is rejected. -/
inductive Says : Blame × Rejection → Prop
  | text : Says (.text, .malformed)
  | whole {m : Mismatch} {mark : Mark} (h : m.Plain) : Says (.whole, .mismatch m "" mark)
  | key {m : Mismatch} {mark : Mark} (h : m.Plain) : Says (.key, .mismatch m "" mark)
  | unknownKey {name : String} {mark : Mark} :
    Says (.unknownKey, .mismatch (.unknownField name fieldNames) "" mark)
  | repeatedKey {name : String} {mark : Mark} (hn : name ∈ fieldNames) :
    Says (.repeatedKey name, .mismatch (.duplicateField name) "" mark)
  | value {name path : String} {m : Mismatch} {mark : Mark} (hn : name ∈ fieldNames)
    (hp : Placed name path) (h : m.Plain) : Says (.value name, .mismatch m path mark)
  | charset {name : String} {mark : Mark} :
    Says (.value "charset", .mismatch (.unsupportedCharset name) "" mark)

/-! ## A reader that tells where it stopped -/

variable {α β ε : Type}

/-- A step with what its rejection is because of. A malformed text is noticed at any step. -/
def Blame.on (b : Blame) (step : Except Rejection α) : Except (Blame × Rejection) α :=
  step.mapError fun r => (if r = .malformed then .text else b, r)

/-- Reads fields up to the end of the mapping, step by step as `readFields`. -/
def examineFields (c : Context) :
    Nat → List String → Project → Items → Except (Blame × Rejection) Project
  | 0, _, _, _ => Blame.text.on (.error .malformed)
  | _ + 1, _, p, (.mappingEnd, _) :: _ => .ok p
  | fuel + 1, seen, p, all => do
    let (name, rest) ← Blame.key.on (readString "field identifier" c all)
    if name ∉ fieldNames then
      Blame.unknownKey.on
        (c.reject (.unknownField name fieldNames) (((c.look all).head?.map Prod.snd).getD {}))
    if name ∈ seen then (Blame.repeatedKey name).on (c.rejectAll (.duplicateField name))
    let (p, rest) ← (Blame.value name).on
      (readField p name { c with path := placeOf name all } rest)
    examineFields c fuel (name :: seen) p rest

def examineDocument (d : Document) : Except (Blame × Rejection) Project := do
  let expected := "struct ProjectConfig"
  let p ← match d.items with
    | [] => .ok {}
    | (.mapping, mark) :: rest => examineFields ⟨d, mark, ""⟩ (rest.length + 1) [] {} rest
    | (.scalar s, mark) :: _ =>
      if s.value.isEmpty ∧ s.style = .plain then .ok {}
      else Blame.whole.on (.error (.mismatch (s.mismatch expected) "" mark))
    | (.sequence, mark) :: _ =>
      Blame.whole.on (.error (.mismatch (.wrongType .sequence expected) "" mark))
    | _ => Blame.text.on (.error .malformed)
  if d.sound then return p else throw (.text, .malformed)

/-- The project in a text, or what the text is rejected for and what is said of it. -/
def examine (text : List Char) : Except (Blame × Rejection) Project :=
  examineDocument (Document.ofText text)

/-! ## Both readers agree -/

@[simp] theorem Blame.mapError_on (b : Blame) (step : Except Rejection α) :
    (b.on step).mapError Prod.snd = step := by
  cases step <;> rfl

theorem readFields_eq_examineFields (c : Context) (fuel : Nat) (seen : List String) (p : Project)
    (all : Items) :
    readFields c fuel seen p all = (examineFields c fuel seen p all).mapError Prod.snd := by
  induction fuel generalizing seen p all with
  | zero => rfl
  | succ fuel ih =>
    by_cases hend : ∃ mark rest, all = (.mappingEnd, mark) :: rest
    · obtain ⟨mark, rest, rfl⟩ := hend
      rfl
    · have hend : ∀ mark rest, all = (.mappingEnd, mark) :: rest → False := by simpa using hend
      rw [readFields, examineFields, mapError_bind, Blame.mapError_on]
      · refine bind_congr fun ⟨name, rest⟩ => ?_
        by_cases hname : name ∈ fieldNames <;> by_cases hseen : name ∈ seen <;>
          simp only [hname, hseen, not_true, not_false_eq_true, if_false, if_true, mapError_bind,
            Blame.mapError_on, ih]
      · exact hend
      · exact hend

theorem ofDocument_eq_examineDocument (d : Document) :
    ofDocument d = (examineDocument d).mapError Prod.snd := by
  have hsound : ∀ p : Project, (if d.sound then return p else throw .malformed) =
      (if d.sound then return p else throw (Blame.text, .malformed) :
        Except (Blame × Rejection) Project).mapError Prod.snd := fun p => by
    split <;> rfl
  unfold ofDocument examineDocument
  simp only [hsound]
  rcases d.items with _ | ⟨⟨item, mark⟩, rest⟩
  · rfl
  · cases item with
    | mapping =>
      dsimp only
      rw [readFields_eq_examineFields, mapError_bind]
    | scalar s =>
      dsimp only
      split <;> rfl
    | _ => rfl

/-! ## Where a value is rejected -/

/-- Every way that a step fails in is one of these. -/
def Fails (P : ε → Prop) (step : Except ε α) : Prop := ∀ e, step = .error e → P e

theorem fails_ok {P : ε → Prop} (a : α) : Fails P (.ok a : Except ε α) := by
  intro e h
  cases h

theorem fails_error {P : ε → Prop} {e : ε} (h : P e) : Fails P (.error e : Except ε α) := by
  rintro e ⟨⟩
  exact h

theorem Fails.mono {P Q : ε → Prop} {step : Except ε α} (h : Fails P step)
    (himp : ∀ e, P e → Q e) : Fails Q step :=
  fun e he => himp e (h e he)

theorem Fails.bind {P : ε → Prop} {step : Except ε α} {next : α → Except ε β} (h : Fails P step)
    (hnext : ∀ a, Fails P (next a)) : Fails P (step >>= next) := by
  cases step with
  | error e => exact fails_error (h e rfl)
  | ok a => exact hnext a

theorem Fails.map {P : ε → Prop} {step : Except ε α} (h : Fails P step) (f : α → β) :
    Fails P (step.map f) := by
  cases step with
  | error e => exact fails_error (h e rfl)
  | ok a => exact fails_ok _

/-- The text is malformed, or a plain mismatch is told with one of these paths. -/
inductive Told (paths : String → Prop) : Rejection → Prop
  | malformed : Told paths .malformed
  | mismatch {m : Mismatch} {path : String} {mark : Mark} (h : m.Plain) (hp : paths path) :
    Told paths (.mismatch m path mark)

theorem Told.mono {paths paths' : String → Prop} {r : Rejection} (h : Told paths r)
    (himp : ∀ path, paths path → paths' path) : Told paths' r := by
  cases h with
  | malformed => exact .malformed
  | mismatch h hp => exact .mismatch h (himp _ hp)

section

variable {c : Context} {items : Items} {expected : String} {m : Mismatch} {mark : Mark}

theorem fails_reject (h : m.Plain) :
    Fails (Told (· = c.path)) (c.reject m mark : Except Rejection α) :=
  fails_error (.mismatch h rfl)

theorem fails_readString (he : expected ∈ expectations) (c : Context) (items : Items) :
    Fails (Told (· = c.path)) (readString expected c items) := by
  unfold readString
  split
  · exact fails_ok _
  · exact fails_reject (.type .sequence he)
  · exact fails_reject (.type .map he)
  · exact fails_error .malformed

theorem fails_readBoolean (c : Context) (items : Items) :
    Fails (Told (· = c.path)) (readBoolean c items) := by
  have he : "a boolean" ∈ expectations := by decide
  unfold readBoolean
  split
  · extract_lets bare
    split
    · exact fails_ok _
    · exact fails_reject (Scalar.plain_mismatch _ he)
  · exact fails_reject (.type .sequence he)
  · exact fails_reject (.type .map he)
  · exact fails_error .malformed

theorem fails_isLeftOut (c : Context) (s : Scalar) : Fails (Told (· = "")) (isLeftOut c s) := by
  unfold isLeftOut
  split
  · exact fails_ok _
  · split
    · exact fails_ok _
    · split
      · exact fails_ok _
      · split
        · exact fails_ok _
        · exact fails_error (.mismatch (.value (.string _) (by decide)) rfl)

theorem fails_readOptional {read : Read α} {P : Rejection → Prop} (c : Context) (items : Items)
    (h : Fails P (read c items)) (hleft : ∀ r, Told (· = "") r → P r) :
    Fails P (readOptional read c items) := by
  have hnext : ∀ leftOut : Bool, Fails P (if leftOut then .ok (none, items.drop 1)
      else read c items >>= fun p => .ok (some p.1, p.2)) := fun leftOut => by
    split
    · exact fails_ok _
    · exact h.bind fun _ => fails_ok _
  unfold readOptional
  split
  · exact ((fails_isLeftOut c _).mono hleft).bind hnext
  · exact (fails_ok false).bind hnext

theorem fails_readItems (c : Context) (index : Nat) (items : Items) :
    Fails (Told (Within c.path)) (readItems c index items) := by
  induction items generalizing index with
  | nil => exact fails_error .malformed
  | cons item rest ih =>
    have hitem : Fails (Told (Within c.path)) (readString "a string"
        { c with path := c.path ++ "[" ++ toString index ++ "]" } (item :: rest)) :=
      (fails_readString (by decide) _ _).mono fun r hr =>
        hr.mono fun path hp => Or.inr ⟨index, hp⟩
    have hrest : ∀ value, Fails (Told (Within c.path)) (readItems c (index + 1) rest >>=
        fun p => .ok (value :: p.1, p.2)) :=
      fun value => (ih (index + 1)).bind fun _ => fails_ok _
    obtain ⟨item, mark⟩ := item
    cases item with
    | sequenceEnd => exact fails_ok _
    | _ => exact hitem.bind fun p => hrest p.1

theorem fails_readStrings (c : Context) (items : Items) :
    Fails (Told (Within c.path)) (readStrings c items) := by
  have he : "a sequence" ∈ expectations := by decide
  have hhere : ∀ {m : Mismatch} {mark : Mark}, m.Plain →
      Fails (Told (Within c.path)) (c.reject m mark : Except Rejection (List String × Items)) :=
    fun h => fails_error (.mismatch h (Or.inl rfl))
  unfold readStrings
  split
  · refine (fails_readItems c 0 _).bind fun (values, rest) => ?_
    dsimp only
    split <;> exact fails_ok _
  · split
    · exact fails_ok _
    · exact hhere (Scalar.plain_mismatch _ he)
  · exact hhere (.type .map he)
  · exact fails_error .malformed

/-- The name is not that of a charset. -/
def Unsupported (r : Rejection) : Prop :=
  ∃ name mark, r = .mismatch (.unsupportedCharset name) "" mark

theorem fails_readCharset (c : Context) (items : Items) :
    Fails (fun r => Told (· = c.path) r ∨ Unsupported r) (readCharset c items) := by
  refine ((fails_readString (by decide) c items).mono fun _ => Or.inl).bind fun (name, rest) => ?_
  dsimp only
  split
  · exact fails_ok _
  · exact fails_error (Or.inr ⟨name, c.top, rfl⟩)

theorem fails_readField {name : String} (hc : c.path = name ∨ c.path = "?") (p : Project)
    (items : Items) :
    Fails (fun r => Told (Placed name) r ∨ name = "charset" ∧ Unsupported r)
      (readField p name c items) := by
  have hhere : ∀ r, Told (· = c.path) r → Told (Placed name) r := fun r h =>
    h.mono fun path hp => Or.inr (hc.imp (hp.trans ·) fun hq => Or.inl (hp.trans hq))
  have hnone : ∀ r, Told (· = "") r → Told (Placed name) r := fun r h => h.mono fun _ => Or.inl
  have hboolean : Fails (Told (Placed name)) (readOptional readBoolean c items) :=
    fails_readOptional c items ((fails_readBoolean c items).mono hhere) hnone
  unfold readField
  split
  · refine Fails.map ((fails_readStrings c items).mono fun r hr => Or.inl (hr.mono ?_)) _
    intro path hp
    rcases hc with h | h <;> rw [h] at hp
    · exact Or.inr (Or.inr (Or.inr ⟨rfl, Or.inl hp⟩))
    · exact Or.inr (Or.inr (Or.inr ⟨rfl, Or.inr hp⟩))
  · exact (fails_readOptional c items ((fails_readString (by decide) c items).mono hhere)
      hnone).mono (fun _ => Or.inl) |>.map _
  · refine Fails.map (fails_readOptional c items ?_ fun r hr => Or.inl (hnone r hr)) _
    exact (fails_readCharset c items).mono fun r => Or.imp (hhere r) fun hr => ⟨rfl, hr⟩
  · exact (hboolean.mono fun _ => Or.inl).map _
  · exact (hboolean.mono fun _ => Or.inl).map _

end

/-! ## What is said where it stopped -/

theorem fails_on {P : Rejection → Prop} {step : Except Rejection α} {b : Blame}
    (h : Fails P step) (htold : ∀ r, P r → r ≠ .malformed → Says (b, r)) :
    Fails Says (b.on step) := by
  cases step with
  | ok a => exact fails_ok a
  | error r =>
    refine fails_error ?_
    by_cases hr : r = .malformed
    · subst hr
      exact .text
    · simp only [if_neg hr]
      exact htold r (h r rfl) hr

theorem fails_key {c : Context} (hc : c.path = "") (all : Items) :
    Fails Says (Blame.key.on (readString "field identifier" c all)) := by
  refine fails_on (fails_readString (by decide) c all) fun r hr hne => ?_
  cases hr with
  | malformed => exact absurd rfl hne
  | mismatch h hp =>
    rw [hp, hc]
    exact .key h

theorem fails_value {c : Context} {name : String} (hn : name ∈ fieldNames)
    (hc : c.path = name ∨ c.path = "?") (p : Project) (items : Items) :
    Fails Says ((Blame.value name).on (readField p name c items)) := by
  refine fails_on (fails_readField hc p items) fun r hr hne => ?_
  rcases hr with hr | ⟨rfl, charset, mark, rfl⟩
  · cases hr with
    | malformed => exact absurd rfl hne
    | mismatch h hp => exact .value hn hp h
  · exact .charset

theorem placeOf_eq (name : String) (all : Items) :
    placeOf name all = name ∨ placeOf name all = "?" := by
  unfold placeOf
  split
  · exact Or.inl rfl
  · exact Or.inr rfl

theorem fails_examineFields {c : Context} (hc : c.path = "") (fuel : Nat) (seen : List String)
    (p : Project) (all : Items) :
    Fails Says (examineFields c fuel seen p all) := by
  induction fuel generalizing seen p all with
  | zero => exact fails_error .text
  | succ fuel ih =>
    by_cases hend : ∃ mark rest, all = (.mappingEnd, mark) :: rest
    · obtain ⟨mark, rest, rfl⟩ := hend
      exact fails_ok p
    · have hend : ∀ mark rest, all = (.mappingEnd, mark) :: rest → False := by simpa using hend
      rw [examineFields]
      · refine (fails_key hc all).bind fun (name, rest) => ?_
        by_cases hname : name ∈ fieldNames
        · by_cases hseen : name ∈ seen
          · simp only [hname, hseen, not_true, if_false, if_true]
            exact fails_error (.repeatedKey hname)
          · simp only [hname, hseen, not_true, if_false]
            refine (fails_value hname ?_ p rest).bind fun (p, rest) => ih _ _ _
            exact placeOf_eq name all
        · simp only [hname, not_false_eq_true, if_true]
          rw [Context.reject, hc]
          exact fails_error .unknownKey
      · exact hend

theorem fails_examineDocument (d : Document) :
    Fails Says (examineDocument d) := by
  have he : "struct ProjectConfig" ∈ expectations := by decide
  have hsound : ∀ p : Project, Fails Says
      (if d.sound then return p else throw (Blame.text, Rejection.malformed)) := fun p => by
    split
    · exact fails_ok p
    · exact fails_error .text
  unfold examineDocument
  rcases d.items with _ | ⟨⟨item, mark⟩, rest⟩
  · exact hsound {}
  · cases item with
    | mapping => exact (fails_examineFields rfl _ _ _ _).bind hsound
    | scalar s =>
      dsimp only
      split
      · exact hsound {}
      · exact fails_error (.whole (s.plain_mismatch he))
    | sequence => exact fails_error (.whole (.type .sequence he))
    | _ => exact fails_error .text

theorem fails_examine (text : List Char) : Fails Says (examine text) :=
  fails_examineDocument _

end SourceBundle.Project
