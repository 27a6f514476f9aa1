/-!
Answers that may be errors. What an answer came from is read off its last step.
-/

namespace Replica

variable {ε ε' α β : Type} {result : Except ε α} {next : α → Except ε β}

theorem bind_eq_ok {b : β} (ended : (result >>= next) = .ok b) :
    ∃ a, result = .ok a ∧ next a = .ok b := by
  cases result with
  | error e => cases ended
  | ok a => exact ⟨a, rfl, ended⟩

theorem bind_eq_error {e : ε} (ended : (result >>= next) = .error e) :
    result = .error e ∨ ∃ a, result = .ok a ∧ next a = .error e := by
  cases result with
  | error e' =>
      cases ended
      exact .inl rfl
  | ok a => exact .inr ⟨a, rfl, ended⟩

theorem mapError_eq_ok {f : ε → ε'} {a : α} (ended : result.mapError f = .ok a) :
    result = .ok a := by
  cases result with
  | error e => cases ended
  | ok b =>
      cases ended
      rfl

end Replica
