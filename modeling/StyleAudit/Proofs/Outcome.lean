/-!
# Outcomes

A computation that ends well has only steps that end well.
-/

namespace StyleAudit

variable {ε α β : Type}

theorem map_ok (f : α → β) (a : α) :
    (Except.ok a : Except ε α).map f = .ok (f a) :=
  rfl

theorem exists_of_isOk {result : Except ε α} (isOk : result.isOk = true) :
    ∃ a, result = .ok a := by
  cases result with
  | error e => cases isOk
  | ok a => exact ⟨a, rfl⟩

theorem exists_ok_of_map {f : α → β} {result : Except ε α} {b : β}
    (done : result.map f = .ok b) : ∃ a, result = .ok a ∧ f a = b := by
  cases result with
  | error e => cases done
  | ok a => exact ⟨a, rfl, Except.ok.inj done⟩

theorem error_of_map {f : α → β} {result : Except ε α} {e : ε}
    (failed : result.map f = .error e) :
    result = .error e := by
  cases result with
  | error e => exact congrArg Except.error (Except.error.inj failed)
  | ok a => cases failed

theorem exists_ok_of_bind {first : Except ε α} {next : α → Except ε β} {b : β}
    (done : first >>= next = .ok b) : ∃ a, first = .ok a ∧ next a = .ok b := by
  cases first with
  | error e => cases done
  | ok a => exact ⟨a, rfl, done⟩

end StyleAudit
