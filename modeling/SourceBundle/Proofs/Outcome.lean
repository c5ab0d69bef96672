/-! # Steps that may fail

What follows from the fact that steps one after the other have come to something.
-/
namespace SourceBundle

variable {α β ε δ : Type} {b : β}

theorem bind_ok {step : Except ε α} {next : α → Except ε β} (h : step >>= next = .ok b) :
    ∃ a, step = .ok a ∧ next a = .ok b := by
  cases step with
  | error e => cases h
  | ok a => exact ⟨a, rfl, h⟩

theorem map_ok {step : Except ε α} {f : α → β} (h : step.map f = .ok b) :
    ∃ a, step = .ok a ∧ f a = b := by
  cases step with
  | error e => cases h
  | ok a => exact ⟨a, rfl, Except.ok.inj h⟩

theorem mapError_ok {step : Except ε α} {f : ε → δ} {a : α} (h : step.mapError f = .ok a) :
    step = .ok a := by
  cases step with
  | error e => cases h
  | ok a' => exact congrArg Except.ok (Except.ok.inj h)

theorem mapError_bind (step : Except ε α) (next : α → Except ε β) (f : ε → δ) :
    (step >>= next).mapError f = step.mapError f >>= fun a => (next a).mapError f := by
  cases step <;> rfl

end SourceBundle
