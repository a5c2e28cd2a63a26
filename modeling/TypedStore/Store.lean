import TypedStore.Collection

/-!
Stores: collections under their names. A collection is reached by its name alone, so all who hold
the name see the same records, also after the collection was dropped and made anew. `get?_put`
says that what becomes of one collection leaves all others alone.
-/

namespace TypedStore

/-- The collections that are there, by name. -/
abbrev Store : Type := Keyed String Contents

namespace Store

/-- The collection of a name, present or absent. -/
def collection (s : Store) (name : String) : Collection := { name, contents := s.get? name }

/-- The store with what a collection has become. -/
def put (s : Store) (name : String) : Option Contents → Store
  | some contents => s.insert name contents
  | none => s.erase name

/-- A step on the collection of a name. -/
def within {α : Type} (name : String) (step : Step Collection α) : Step Store α := fun s =>
  let (answer, c) := step (s.collection name)
  (answer, s.put name c.contents)

/-- Makes the collection of a name if it is absent. -/
def ensure (s : Store) (name : String) : Store := s.put name (s.collection name).create.contents

/-- A store with the named collections, all empty. -/
def withCollections (names : List String) : Store := names.foldl ensure []

/-- The names of the collections that are there, sorted. -/
def names (s : Store) : List String := s.keys.mergeSort fun a b => decide (a ≤ b)

/-- Removes the collection of a name, which must be there. -/
def drop (name : String) : Step Store Unit := fun s =>
  if s.contains name then (.ok (), s.erase name) else (.error (.collectionNotFound name), s)

/-- What a name stands for after a collection was put back. -/
theorem get?_put {s : Store} (hs : Keyed.Nodup s) (name : String) (contents : Option Contents)
    (other : String) :
    Keyed.get? (s.put name contents) other =
      if name = other then contents else Keyed.get? s other := by
  cases contents with
  | none => exact Keyed.get?_erase hs name other
  | some contents => exact Keyed.get?_insert s name contents other

theorem nodup_put {s : Store} (hs : Keyed.Nodup s) (name : String) (contents : Option Contents) :
    Keyed.Nodup (s.put name contents) := by
  cases contents with
  | none => exact Keyed.nodup_erase hs name
  | some contents => exact Keyed.nodup_insert hs name contents

theorem collection_put {s : Store} (hs : Keyed.Nodup s) (name : String)
    (contents : Option Contents) (other : String) :
    (s.put name contents).collection other =
      if name = other then { name, contents } else s.collection other := by
  rw [collection, get?_put hs]
  split
  · next h => rw [h]
  · rfl

end Store

end TypedStore
