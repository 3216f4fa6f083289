import JvmAccessors.Accessor.Event

/-!
# Outcomes

When a computation that may fail answers a value: what it is put together from did (`bind_eq_ok`, `map_eq_ok`,
`andThen_eq_ok`), and how its failures are named does not matter (`mapError_eq_ok`). It fails where the first of its
parts does (`bind_eq_error`, `map_eq_error`, `mapError_eq_error`).
-/

namespace JvmAccessors
namespace Outcome

variable {ε ε' α β : Type} {x : Except ε α}

/-- Two computations in a row answer if each does. -/
theorem bind_eq_ok {f : α → Except ε β} {b : β} : (x >>= f) = .ok b ↔ ∃ a, x = .ok a ∧ f a = .ok b := by
  cases x with
  | error e =>
    show Except.error e = .ok b ↔ _
    simp
  | ok a =>
    show f a = .ok b ↔ _
    simp

/-- Two computations in a row fail if the first does, or if the second does after it. -/
theorem bind_eq_error {f : α → Except ε β} {e : ε} :
    (x >>= f) = .error e ↔ x = .error e ∨ ∃ a, x = .ok a ∧ f a = .error e := by
  cases x with
  | error e' =>
    show Except.error e' = .error e ↔ _
    simp
  | ok a =>
    show f a = .error e ↔ _
    simp

theorem map_eq_ok {f : α → β} {b : β} : x.map f = .ok b ↔ ∃ a, x = .ok a ∧ f a = b := by
  cases x with
  | error e => exact ⟨nofun, nofun⟩
  | ok a =>
    constructor
    · intro h
      cases h
      exact ⟨a, rfl, rfl⟩
    · rintro ⟨_, h, rfl⟩
      cases h
      rfl

theorem map_eq_error {f : α → β} {e : ε} : x.map f = .error e ↔ x = .error e := by
  cases x with
  | error e' =>
    show Except.error e' = .error e ↔ _
    rw [Except.error.injEq, Except.error.injEq]
  | ok a => exact ⟨nofun, nofun⟩

/-- Renaming failures changes no answer. -/
theorem mapError_eq_ok {f : ε → ε'} {a : α} : x.mapError f = .ok a ↔ x = .ok a := by
  cases x with
  | error e => exact ⟨nofun, nofun⟩
  | ok b =>
    show Except.ok b = Except.ok a ↔ _
    rw [Except.ok.injEq, Except.ok.injEq]

theorem mapError_eq_error {f : ε → ε'} {e' : ε'} : x.mapError f = .error e' ↔ ∃ e, x = .error e ∧ f e = e' := by
  cases x with
  | error e =>
    show Except.error (f e) = .error e' ↔ _
    simp
  | ok a => exact ⟨nofun, nofun⟩

theorem toOption_eq_some {a : α} : x.toOption = some a ↔ x = .ok a := by
  cases x with
  | error e => exact ⟨nofun, nofun⟩
  | ok b =>
    show some b = some a ↔ _
    rw [Option.some.injEq, Except.ok.injEq]

theorem discard_eq_ok {u : Unit} : (discard x : Except ε Unit) = .ok u ↔ ∃ a, x = .ok a := by
  show x.map (fun _ => ()) = .ok u ↔ _
  rw [map_eq_ok]
  simp

/-- A computation fails exactly if it answers nothing. -/
theorem exists_error_iff : (∃ e, x = .error e) ↔ ¬ ∃ a, x = .ok a := by
  cases x <;> simp

theorem andThen_eq_ok {t : Traced ε α} {next : α → Traced ε β} {b : β} :
    (t.andThen next).outcome = .ok b ↔ ∃ a, t.outcome = .ok a ∧ (next a).outcome = .ok b := by
  unfold Traced.andThen
  cases t.outcome <;> simp

theorem andThen_eq_error {t : Traced ε α} {next : α → Traced ε β} {e : ε} :
    (t.andThen next).outcome = .error e ↔
      t.outcome = .error e ∨ ∃ a, t.outcome = .ok a ∧ (next a).outcome = .error e := by
  unfold Traced.andThen
  cases t.outcome <;> simp

end Outcome
end JvmAccessors
