import MonkeyFormat.Fault

set_option autoImplicit false

/-! # Running programs with a state and faults

Lexer and parser keep their state also when they fail, so a run from a state gives an outcome and a
state. The equations here take a run apart at each step. -/

namespace MonkeyFormat

variable {σ ε α β : Type}

/-- A computation that succeeds went through an intermediate result. -/
theorem bind_eq_ok {m : Except ε α} {f : α → Except ε β} {b : β} (h : m >>= f = .ok b) :
    ∃ a, m = .ok a ∧ f a = .ok b := by
  cases m with
  | error e => cases h
  | ok a => exact ⟨a, rfl, h⟩

theorem run_bind (m : ExceptT ε (StateM σ) α) (f : α → ExceptT ε (StateM σ) β) (s : σ) :
    (m >>= f).run.run s = match m.run.run s with
      | (.ok a, t) => (f a).run.run t
      | (.error e, t) => (.error e, t) := by
  change (match m.run.run s with | (a, t) => (ExceptT.bindCont f a).run t) = _
  rcases m.run.run s with ⟨_ | _, _⟩ <;> rfl

theorem run_bind_ok {m : ExceptT ε (StateM σ) α} {s t : σ} {a : α}
    (f : α → ExceptT ε (StateM σ) β) (h : m.run.run s = (.ok a, t)) :
    (m >>= f).run.run s = (f a).run.run t := by
  rw [run_bind, h]

theorem run_map_ok {m : ExceptT ε (StateM σ) α} {s t : σ} {a : α} (f : α → β)
    (h : m.run.run s = (.ok a, t)) : (f <$> m).run.run s = (.ok (f a), t) := by
  rw [← bind_pure_comp]
  exact run_bind_ok _ h

/-- A run that succeeds went through an intermediate result and state. -/
theorem run_bind_eq_ok {m : ExceptT ε (StateM σ) α} {f : α → ExceptT ε (StateM σ) β} {s u : σ}
    {b : β} (h : (m >>= f).run.run s = (.ok b, u)) :
    ∃ a t, m.run.run s = (.ok a, t) ∧ (f a).run.run t = (.ok b, u) := by
  rw [run_bind] at h
  rcases hm : m.run.run s with ⟨_ | a, t⟩ <;> rw [hm] at h
  · cases h
  · exact ⟨a, t, rfl, h⟩

theorem run_map_eq_ok {m : ExceptT ε (StateM σ) α} {f : α → β} {s u : σ} {b : β}
    (h : (f <$> m).run.run s = (.ok b, u)) : ∃ a, m.run.run s = (.ok a, u) ∧ f a = b := by
  rw [← bind_pure_comp] at h
  obtain ⟨a, t, ha, hb⟩ := run_bind_eq_ok h
  cases hb
  exact ⟨a, ha, rfl⟩

end MonkeyFormat
