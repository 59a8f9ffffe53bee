import SignalEvolution.Problem

/-! # Results without a problem and values that are there -/
namespace SignalEvolution

variable {α β : Type}

/-- A sequence of two steps succeeds where both do. -/
theorem bind_eq_ok {a : Except Problem α} {f : α → Except Problem β} {b : β} (h : a >>= f = .ok b) :
    ∃ x, a = .ok x ∧ f x = .ok b := by
  cases a with
  | error _ => cases h
  | ok x => exact ⟨x, rfl, h⟩

theorem map_eq_ok {a : Except Problem α} {f : α → β} {b : β} (h : a.map f = .ok b) :
    ∃ x, a = .ok x ∧ f x = b := by
  cases a with
  | error _ => cases h
  | ok x => exact ⟨x, rfl, Except.ok.inj h⟩

theorem bind_of_ok {a : Except Problem α} {f : α → Except Problem β} {x : α} {b : β} (ha : a = .ok x)
    (hf : f x = .ok b) : a >>= f = .ok b := by
  rw [ha]
  exact hf

theorem bind_of_some {a : Option α} {f : α → Option β} {x : α} {b : β} (ha : a = some x)
    (hf : f x = some b) : a >>= f = some b := by
  rw [ha]
  exact hf

theorem exists_of_isOk {a : Except Problem α} (h : a.isOk = true) : ∃ x, a = .ok x := by
  cases a with
  | error _ => cases h
  | ok x => exact ⟨x, rfl⟩

theorem exists_of_not_isOk {a : Except Problem α} (h : a.isOk = false) : ∃ p, a = .error p := by
  cases a with
  | error p => exact ⟨p, rfl⟩
  | ok _ => cases h

theorem orValue_eq_ok {p : Problem} {o : Option α} {a : α} (h : p.orValue o = .ok a) : o = some a := by
  cases o with
  | none => cases h
  | some x => exact congrArg some (Except.ok.inj h)

end SignalEvolution
