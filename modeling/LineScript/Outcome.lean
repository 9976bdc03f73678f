/-!
# Outcomes and runs

Reading a program and running it have the same shape: a state is passed along, and there are three
ways to end.

  * `Outcome ε α` is a value, an error, or the remark that a bound on the number of steps was
    reached. The third is kept apart from the errors: it says nothing about the program.
  * `Run σ ε α` passes a state of type `σ` along. The state survives every ending, errors included.
  * `Run` is a monad: an error ends what follows it.
-/

namespace LineScript

/-- How a computation ends. -/
inductive Outcome (ε α : Type)
  /-- With a value. -/
  | value (a : α)
  /-- With an error. -/
  | error (e : ε)
  /-- At the bound on the number of steps. -/
  | exhausted

/-- The same ending with its value changed. -/
def Outcome.map {ε α β : Type} (f : α → β) : Outcome ε α → Outcome ε β
  | value a => value (f a)
  | error e => error e
  | exhausted => exhausted

/-- The same ending with its error changed. -/
def Outcome.mapError {ε δ α : Type} (f : ε → δ) : Outcome ε α → Outcome δ α
  | value a => value a
  | error e => error (f e)
  | exhausted => exhausted

/-- A computation that reads and changes a state. -/
def Run (σ ε α : Type) : Type := σ → Outcome ε α × σ

namespace Run

variable {σ ε α β : Type}

/-- One computation after another. -/
@[always_inline, inline] protected def bind (run : Run σ ε α) (next : α → Run σ ε β) : Run σ ε β :=
  fun s =>
    match run s with
    | (.value a, s) => next a s
    | (.error e, s) => (.error e, s)
    | (.exhausted, s) => (.exhausted, s)

@[always_inline] instance : Monad (Run σ ε) where
  pure a := fun s => (.value a, s)
  bind := Run.bind

theorem pure_apply (a : α) (s : σ) : (pure a : Run σ ε α) s = (.value a, s) := rfl

theorem bind_apply (run : Run σ ε α) (next : α → Run σ ε β) (s : σ) :
    (run >>= next) s =
      match run s with
      | (.value a, s) => next a s
      | (.error e, s) => (.error e, s)
      | (.exhausted, s) => (.exhausted, s) := rfl

/-- Two computations end with a value exactly if both do. -/
theorem bind_eq_value_iff {run : Run σ ε α} {next : α → Run σ ε β} {s t : σ} {b : β} :
    (run >>= next) s = (.value b, t) ↔
      ∃ a s', run s = (.value a, s') ∧ next a s' = (.value b, t) := by
  rw [bind_apply]
  rcases run s with ⟨a | e | _, s'⟩
  · constructor
    · intro h
      exact ⟨a, s', rfl, h⟩
    · rintro ⟨_, _, ⟨⟩, h⟩
      exact h
  · simp
  · simp

/-- Two computations end with an error exactly if the first does, or the second after it. -/
theorem bind_eq_error_iff {run : Run σ ε α} {next : α → Run σ ε β} {s t : σ} {e : ε} :
    (run >>= next) s = (.error e, t) ↔
      run s = (.error e, t) ∨ ∃ a s', run s = (.value a, s') ∧ next a s' = (.error e, t) := by
  rw [bind_apply]
  rcases run s with ⟨a | e' | _, s'⟩
  · constructor
    · intro h
      exact .inr ⟨a, s', rfl, h⟩
    · rintro (⟨⟨⟩⟩ | ⟨_, _, ⟨⟩, h⟩)
      exact h
  · simp
  · simp

/-- The state after two computations is that of the second, or that of the first if it gave no
value. -/
theorem bind_snd {P : σ → Prop} {run : Run σ ε α} {next : α → Run σ ε β} {s : σ}
    (hfirst : P (run s).2) (hnext : ∀ a, P (next a (run s).2).2) : P ((run >>= next) s).2 := by
  rw [bind_apply]
  rcases hr : run s with ⟨a | e | _, s'⟩ <;> rw [hr] at hfirst hnext
  · exact hnext a
  · exact hfirst
  · exact hfirst

/-- Ends with an error. -/
def fail (e : ε) : Run σ ε α := fun s => (.error e, s)

/-- Ends because the bound on the number of steps was reached. -/
def exhausted : Run σ ε α := fun s => (.exhausted, s)

/-- Something that can be seen in the state. -/
@[inline] def look (f : σ → α) : Run σ ε α := fun s => (.value (f s), s)

/-- Changes the state. -/
@[inline] def modify (f : σ → σ) : Run σ ε Unit := fun s => (.value (), f s)

end Run

end LineScript
