import TypedStore.Step

/-!
Two programs that cannot be told apart.

Two steps agree when from related states they fail with the same error, or answer with related
values, and leave related states behind (`Step.Agree`). Steps that are put together in the same way
from steps that agree do agree: there is a rule for each way to put them together, the main one for
a sequence (`Step.Agree.bind`).

Where it does not matter with which error both fail, answers only concur (`Concur`).
-/

namespace TypedStore

variable {α β α' β' : Type}

/-- Two answers agree: they are one failure, or related values. -/
inductive Answers (Q : α → β → Prop) : Except Error α → Except Error β → Prop where
  | ok {a : α} {b : β} (h : Q a b) : Answers Q (.ok a) (.ok b)
  | error (e : Error) : Answers Q (.error e) (.error e)

namespace Answers

variable {Q : α → β → Prop} {Q' : α' → β' → Prop}

theorem refl (x : Except Error α) : Answers Eq x x := by
  cases x with
  | ok a => exact .ok rfl
  | error e => exact .error e

theorem of_eq {x y : Except Error α} (h : x = y) : Answers Eq x y := h ▸ refl x

theorem eq {x y : Except Error α} (h : Answers Eq x y) : x = y := by
  cases h with
  | ok h => rw [h]
  | error e => rfl

theorem bind {x : Except Error α} {y : Except Error β} {f : α → Except Error α'}
    {g : β → Except Error β'} (h : Answers Q x y) (hnext : ∀ a b, Q a b → Answers Q' (f a) (g b)) :
    Answers Q' (x >>= f) (y >>= g) := by
  cases h with
  | ok h => exact hnext _ _ h
  | error e => exact .error e

theorem map {x : Except Error α} {y : Except Error β} {f : α → α'} {g : β → β'}
    (h : Answers Q x y) (hmap : ∀ a b, Q a b → Q' (f a) (g b)) :
    Answers Q' (x.map f) (y.map g) := by
  cases h with
  | ok h => exact .ok (hmap _ _ h)
  | error e => exact .error e

end Answers

/-- Two answers concur: both are failures, of whatever kind, or they are related. -/
inductive Concur (Q : α → β → Prop) : Except Error α → Except Error β → Prop where
  | ok {a : α} {b : β} (h : Q a b) : Concur Q (.ok a) (.ok b)
  | error (e e' : Error) : Concur Q (.error e) (.error e')

namespace Concur

variable {Q : α → β → Prop} {Q' : α' → β' → Prop}

theorem of_answers {x : Except Error α} {y : Except Error β} (h : Answers Q x y) :
    Concur Q x y := by
  cases h with
  | ok h => exact .ok h
  | error e => exact .error e e

theorem bind {x : Except Error α} {y : Except Error β} {f : α → Except Error α'}
    {g : β → Except Error β'} (h : Concur Q x y) (hnext : ∀ a b, Q a b → Concur Q' (f a) (g b)) :
    Concur Q' (x >>= f) (y >>= g) := by
  cases h with
  | ok h => exact hnext _ _ h
  | error e e' => exact .error e e'

end Concur

namespace Step

variable {S T D : Type} {R : S → T → Prop} {Q : α → β → Prop} {Q' : α' → β' → Prop}

/-- From related states both steps answer alike and leave related states. -/
def Agree (R : S → T → Prop) (Q : α → β → Prop) (f : Step S α) (g : Step T β) : Prop :=
  ∀ s t, R s t → Answers Q (f s).1 (g t).1 ∧ R (f s).2 (g t).2

/-- States that hold the same value beside related ones. -/
def Beside (D : Type) (R : S → T → Prop) (a : D × S) (b : D × T) : Prop := a.1 = b.1 ∧ R a.2 b.2

namespace Agree

theorem pure {a : α} {b : β} (h : Q a b) : Agree R Q (Pure.pure a) (Pure.pure b) :=
  fun _ _ hst => ⟨.ok h, hst⟩

theorem bind {f : Step S α} {g : Step T β} {f' : α → Step S α'} {g' : β → Step T β'}
    (h : Agree R Q f g) (hnext : ∀ a b, Q a b → Agree R Q' (f' a) (g' b)) :
    Agree R Q' (f >>= f') (g >>= g') := by
  intro s t hst
  obtain ⟨hanswer, hstate⟩ := h s t hst
  rcases hf : f s with ⟨x, s'⟩
  rcases hg : g t with ⟨y, t'⟩
  rw [hf, hg] at hanswer hstate
  cases hanswer with
  | ok hab =>
    rw [bind_run_ok hf, bind_run_ok hg]
    exact hnext _ _ hab s' t' hstate
  | error e =>
    rw [bind_run_error hf, bind_run_error hg]
    exact ⟨.error e, hstate⟩

theorem ofExcept {x : Except Error α} {y : Except Error β} (h : Answers Q x y) :
    Agree R Q (Step.ofExcept x) (Step.ofExcept y) :=
  fun _ _ hst => ⟨h, hst⟩

theorem get : Agree R R Step.get Step.get := fun _ _ hst => ⟨.ok hst, hst⟩

theorem set {s : S} {t : T} (h : R s t) : Agree R Eq (Step.set s) (Step.set t) :=
  fun _ _ _ => ⟨.ok rfl, h⟩

theorem read {f : S → Except Error α} {g : T → Except Error β}
    (h : ∀ s t, R s t → Answers Q (f s) (g t)) : Agree R Q (Step.read f) (Step.read g) :=
  fun s t hst => ⟨h s t hst, hst⟩

theorem onSnd {f : Step S α} {g : Step T β} (h : Agree R Q f g) :
    Agree (Beside D R) Q (Step.onSnd f) (Step.onSnd g) := by
  rintro ⟨d, s⟩ ⟨_, t⟩ ⟨hd, hst⟩
  obtain ⟨hanswer, hstate⟩ := h s t hst
  exact ⟨hanswer, hd, hstate⟩

theorem bringing {f : Step (D × S) α} {g : Step (D × T) β} (h : Agree (Beside D R) Q f g) (d : D) :
    Agree R (fun a b => Q a.1 b.1 ∧ a.2 = b.2) (Step.bringing d f) (Step.bringing d g) := by
  intro s t hst
  obtain ⟨hanswer, hd, hstate⟩ := h (d, s) (d, t) ⟨rfl, hst⟩
  exact ⟨hanswer.map fun _ _ hab => ⟨hab, hd⟩, hstate⟩

end Agree

end Step

end TypedStore
