import TypedStore.Error

/-!
Steps on a state. A step answers or fails, and either way it leaves a state behind: what it did
before a failure stays done. The lemmas say how steps run one after the other.
-/

namespace TypedStore

/-- A step on a state of type `S`. -/
def Step (S α : Type) : Type := S → Except Error α × S

namespace Step

variable {S T α β : Type}

instance : Monad (Step S) where
  pure a := fun s => (.ok a, s)
  bind step next := fun s =>
    match step s with
    | (.ok a, s) => next a s
    | (.error e, s) => (.error e, s)

/-- The answer or failure of something that does not touch the state. -/
def ofExcept (answer : Except Error α) : Step S α := fun s => (answer, s)

/-- Failure, with the state as it is. -/
def fail (e : Error) : Step S α := ofExcept (.error e)

/-- The state. -/
def get : Step S S := fun s => (.ok s, s)

/-- A new state. -/
def set (s : S) : Step S Unit := fun _ => (.ok (), s)

/-- What can be read off the state. -/
def read (f : S → Except Error α) : Step S α := fun s => (f s, s)

/-- A step on the second part of a state. -/
def onSnd (step : Step T α) : Step (S × T) α := fun (s, t) =>
  let (answer, t) := step t
  (answer, s, t)

/-- A step that takes a value of its own along, and gives it back beside its answer. -/
def bringing (s : S) (step : Step (S × T) α) : Step T (α × S) := fun t =>
  let (answer, s, t) := step (s, t)
  (answer.map (·, s), t)

theorem pure_run (a : α) (s : S) : (pure a : Step S α) s = (.ok a, s) := rfl

theorem bind_run_ok {step : Step S α} {s t : S} {a : α} (h : step s = (.ok a, t))
    (next : α → Step S β) : (step >>= next) s = next a t := by
  simp [bind, h]

theorem bind_run_error {step : Step S α} {s t : S} {e : Error} (h : step s = (.error e, t))
    (next : α → Step S β) : (step >>= next) s = (.error e, t) := by
  simp [bind, h]

theorem read_bind_pure (f : S → Except Error α) (g : α → β) (s : S) :
    (read f >>= fun a => pure (g a)) s = ((f s).map g, s) := by
  cases h : f s <;> simp [bind, read, pure_run, h, Except.map]

theorem ofExcept_eq_ok {answer : Except Error α} {s t : S} {a : α}
    (h : ofExcept answer s = (.ok a, t)) : answer = .ok a ∧ t = s := by
  cases h
  exact ⟨rfl, rfl⟩

theorem bringing_eq_ok {s s' : S} {step : Step (S × T) α} {t t' : T} {a : α}
    (h : bringing s step t = (.ok (a, s'), t')) : step (s, t) = (.ok a, s', t') := by
  rcases hstep : step (s, t) with ⟨answer, s'', t''⟩
  cases answer <;> simp [bringing, hstep, Except.map] at h ⊢
  exact ⟨h.1.1, h.1.2, h.2⟩

/-- A sequence that succeeds goes through an answer and a state in between. -/
theorem bind_eq_ok {step : Step S α} {next : α → Step S β} {s t : S} {b : β}
    (h : (step >>= next) s = (.ok b, t)) :
    ∃ a u, step s = (.ok a, u) ∧ next a u = (.ok b, t) := by
  cases hstep : step s with
  | mk answer u =>
    cases answer with
    | ok a => exact ⟨a, u, rfl, by rw [← h, bind_run_ok hstep]⟩
    | error e =>
      rw [bind_run_error hstep] at h
      cases h

end Step

end TypedStore
