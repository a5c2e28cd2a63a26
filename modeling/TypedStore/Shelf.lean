import Mathlib.Logic.Function.Basic
import TypedStore.Store

/-!
Stores as they are kept. A shelf has a cell for every name that was opened, and the cell stays where
it is: dropping a collection empties its cell, and opening the name again fills it. Whoever opened a
name holds the cell, and reaches what is in it past the shelf.

`Store` is what a shelf shows, the collections that are there under their names. The lemmas say what
becomes of the collection of each name when a cell is filled (`collection_put`) and when a name is
opened (`collection_reach`), as long as the cells are kept apart (`Sound`).
-/

namespace TypedStore

/-- Collections in cells, and the names that lead to them. -/
structure Shelf where
  /-- The cell of each name that was opened. -/
  entries : Keyed String Nat := []
  /-- What is in the cells. -/
  cells : Nat → Collection := fun _ => { name := "" }
  /-- The first cell that was not given to a name. -/
  next : Nat := 0

namespace Shelf

/-- The collection of a name, absent if the name has no cell. -/
def collection (s : Shelf) (name : String) : Collection :=
  match Keyed.get? s.entries name with
  | some cell => s.cells cell
  | none => { name }

/-- The shelf with another collection in a cell. -/
def put (s : Shelf) (cell : Nat) (c : Collection) : Shelf :=
  { s with cells := Function.update s.cells cell c }

/-- A step on what is in a cell. -/
def within {α : Type} (cell : Nat) (step : Step Collection α) : Step Shelf α := fun s =>
  let (answer, c) := step (s.cells cell)
  (answer, s.put cell c)

/-- The cell of a name, the next one with a new collection if the name has none. -/
def entry (s : Shelf) (name : String) : Nat × Shelf :=
  match Keyed.get? s.entries name with
  | some cell => (cell, s)
  | none => (s.next,
    { entries := Keyed.insert s.entries name s.next
      cells := Function.update s.cells s.next { name, contents := some {} }
      next := s.next + 1 })

/-- Opens a name: gives out its cell, with the collection made if it is absent. -/
def reach (s : Shelf) (name : String) : Nat × Shelf :=
  let (cell, s) := s.entry name
  (cell, s.put cell (s.cells cell).create)

/-- The names whose collections are there, sorted. -/
def names (s : Shelf) : List String :=
  (Keyed.keys (s.entries.filter fun e => (s.cells e.2).isPresent)).mergeSort
    fun a b => decide (a ≤ b)

/-- Empties the cell of a name, which must have a collection in it. -/
def drop (name : String) : Step Shelf Unit := fun s =>
  match Keyed.get? s.entries name with
  | some cell =>
    if (s.cells cell).isPresent then (.ok (), s.put cell (s.cells cell).remove)
    else (.error (.collectionNotFound name), s)
  | none => (.error (.collectionNotFound name), s)

/-- Every name has one cell, and what is in it goes by that name. So no two names share a cell. -/
structure Sound (s : Shelf) : Prop where
  nodup : Keyed.Nodup s.entries
  given : ∀ name cell, Keyed.get? s.entries name = some cell → cell < s.next
  named : ∀ name cell, Keyed.get? s.entries name = some cell → (s.cells cell).name = name

theorem Sound.empty : ({} : Shelf).Sound where
  nodup := by simp [Keyed.Nodup, Keyed.keys]
  given := by simp
  named := by simp

variable {s : Shelf} {name : String} {cell : Nat}

theorem collection_of_entry (h : Keyed.get? s.entries name = some cell) :
    s.collection name = s.cells cell := by
  rw [collection, h]

theorem Sound.collection_name (hs : s.Sound) (name : String) : (s.collection name).name = name := by
  unfold collection
  split
  · next h => exact hs.named _ _ h
  · rfl

theorem collection_put (hs : s.Sound) (h : Keyed.get? s.entries name = some cell) (c : Collection)
    (other : String) :
    (s.put cell c).collection other = if name = other then c else s.collection other := by
  split
  · next heq =>
    subst heq
    rw [collection_of_entry (s := s.put cell c) h]
    exact Function.update_self ..
  · next hne =>
    unfold collection
    cases hother : Keyed.get? s.entries other with
    | none => simp [put, hother]
    | some cell' =>
      -- what is in a cell goes by one name only
      have hcell : cell' ≠ cell := by
        rintro rfl
        exact hne ((hs.named _ _ h).symm.trans (hs.named _ _ hother))
      simp [put, hother, Function.update_of_ne hcell]

theorem Sound.put (hs : s.Sound) (h : Keyed.get? s.entries name = some cell) {c : Collection}
    (hc : c.name = name) : (s.put cell c).Sound where
  nodup := hs.nodup
  given := hs.given
  named := by
    intro other cell' hother
    have hnamed := collection_put hs h c other
    rw [collection_of_entry (s := s.put cell c) hother] at hnamed
    rw [hnamed]
    split
    · next heq => rw [hc, heq]
    · exact hs.collection_name other

/-! ## Opening a name -/

theorem entry_of_some (h : Keyed.get? s.entries name = some cell) : s.entry name = (cell, s) := by
  rw [entry, h]

theorem entry_of_none (h : Keyed.get? s.entries name = none) :
    s.entry name = (s.next,
      { entries := Keyed.insert s.entries name s.next
        cells := Function.update s.cells s.next { name, contents := some {} }
        next := s.next + 1 }) := by
  rw [entry, h]

theorem get?_entry (s : Shelf) (name other : String) :
    Keyed.get? (s.entry name).2.entries other =
      if name = other then some (s.entry name).1 else Keyed.get? s.entries other := by
  cases h : Keyed.get? s.entries name with
  | some cell =>
    rw [entry_of_some h]
    split
    · next heq => rw [← heq, h]
    · rfl
  | none =>
    rw [entry_of_none h]
    exact Keyed.get?_insert ..

theorem Sound.entry (hs : s.Sound) (name : String) : (s.entry name).2.Sound := by
  cases h : Keyed.get? s.entries name with
  | some cell =>
    rw [entry_of_some h]
    exact hs
  | none =>
    rw [entry_of_none h]
    refine ⟨Keyed.nodup_insert hs.nodup .., ?given, ?named⟩
    case given =>
      intro other cell hother
      rw [Keyed.get?_insert] at hother
      split at hother
      · cases hother
        exact Nat.lt_succ_self _
      · exact Nat.lt_succ_of_lt (hs.given _ _ hother)
    case named =>
      intro other cell hother
      rw [Keyed.get?_insert] at hother
      split at hother
      · next heq =>
        cases hother
        simp [heq]
      · have hne : cell ≠ s.next := Nat.ne_of_lt (hs.given _ _ hother)
        simp only [Function.update_of_ne hne]
        exact hs.named _ _ hother

/-- A new cell does not show among the collections of the other names. -/
theorem collection_entry (hs : s.Sound) {other : String} (hne : name ≠ other) :
    (s.entry name).2.collection other = s.collection other := by
  cases h : Keyed.get? s.entries name with
  | some cell => rw [entry_of_some h]
  | none =>
    rw [entry_of_none h]
    unfold collection
    rw [Keyed.get?_insert, if_neg hne]
    cases hother : Keyed.get? s.entries other with
    | none => rfl
    | some cell =>
      have hcell : cell ≠ s.next := Nat.ne_of_lt (hs.given _ _ hother)
      simp [Function.update_of_ne hcell]

theorem create_entry (s : Shelf) (name : String) :
    ((s.entry name).2.cells (s.entry name).1).create = (s.collection name).create := by
  cases h : Keyed.get? s.entries name with
  | some cell => rw [entry_of_some h, collection_of_entry h]
  | none => simp [entry_of_none h, collection, h, Collection.create]

theorem reach_eq (s : Shelf) (name : String) :
    s.reach name = ((s.entry name).1,
      (s.entry name).2.put (s.entry name).1 (s.collection name).create) := by
  rw [← create_entry]
  rfl

theorem get?_reach (s : Shelf) (name other : String) :
    Keyed.get? (s.reach name).2.entries other =
      if name = other then some (s.reach name).1 else Keyed.get? s.entries other :=
  get?_entry s name other

/-- Opening a name leaves the cells of names as they were. -/
theorem get?_reach_of_some (h : Keyed.get? s.entries name = some cell) (other : String) :
    Keyed.get? (s.reach other).2.entries name = some cell := by
  rw [get?_reach]
  split
  · next heq =>
    subst heq
    rw [reach_eq, entry_of_some h]
  · exact h

/-- The cell that is given out is the name's. -/
theorem get?_entry_self (s : Shelf) (name : String) :
    Keyed.get? (s.entry name).2.entries name = some (s.entry name).1 := by
  rw [get?_entry, if_pos rfl]

theorem Sound.reach (hs : s.Sound) (name : String) : (s.reach name).2.Sound := by
  rw [reach_eq]
  exact (hs.entry name).put (get?_entry_self s name) (hs.collection_name name)

theorem collection_reach (hs : s.Sound) (name other : String) :
    (s.reach name).2.collection other =
      if name = other then (s.collection name).create else s.collection other := by
  rw [reach_eq, collection_put (hs.entry name) (get?_entry_self s name)]
  split
  · rfl
  · next hne => exact collection_entry hs hne

/-! ## Listing and dropping -/

theorem mem_names (hs : s.Sound) : name ∈ s.names ↔ (s.collection name).isPresent = true := by
  rw [names, List.mem_mergeSort]
  simp only [Keyed.keys, List.mem_map, List.mem_filter, Prod.exists, exists_and_right,
    exists_eq_right]
  cases h : Keyed.get? s.entries name with
  | none =>
    have hnotMem (cell : Nat) : (name, cell) ∉ s.entries := fun hmem =>
      absurd (Keyed.get?_of_mem hs.nodup hmem) (by simp [h])
    simp [hnotMem, collection, h, Collection.isPresent]
  | some cell =>
    simp [← Keyed.get?_eq_some_iff hs.nodup, h, collection_of_entry h]

theorem drop_of_present (h : (s.collection name).isPresent = true) :
    ∃ cell, Keyed.get? s.entries name = some cell ∧
      drop name s = (.ok (), s.put cell (s.collection name).remove) := by
  cases hcell : Keyed.get? s.entries name with
  | none => simp [collection, hcell, Collection.isPresent] at h
  | some cell =>
    rw [collection_of_entry hcell] at h ⊢
    exact ⟨cell, rfl, by simp [drop, hcell, h]⟩

theorem drop_of_absent (h : (s.collection name).isPresent = false) :
    drop name s = (.error (.collectionNotFound name), s) := by
  cases hcell : Keyed.get? s.entries name with
  | none => simp [drop, hcell]
  | some cell =>
    rw [collection_of_entry hcell] at h
    simp [drop, hcell, h]

end Shelf

end TypedStore
