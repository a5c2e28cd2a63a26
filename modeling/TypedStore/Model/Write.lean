import TypedStore.Model.Query

/-!
What a model writes to its collection.

An operation on an instance is a step on the instance and the target together: it leaves the
instance with what it was stored as. A single operation that fails leaves both as they were. One on
several instances goes through them in order, stops at the first failure and leaves the earlier
ones stored.
-/

namespace TypedStore.Model

variable {σ D : Type} [SchemaGraph σ] (m : Model σ D)

/-- Adds the instance as a new record and gives it the identifier of that record. -/
def insert : Step (D × Target) Unit := do
  let (d, t) ← Step.get
  let _ ← Step.ofExcept (m.collection t)
  let record ← Step.ofExcept (m.toRecord d)
  let id ← Step.onSnd (m.onCollection (Collection.store record))
  let (_, t) ← Step.get
  Step.set (m.type.setId d id, t)

/-- Replaces the record under the identifier that the document has, and the instance with it. Tells
whether there was such a record. -/
def persist (mapping : Document) : Step (D × Target) Bool := do
  let (_, t) ← Step.get
  let _ ← Step.ofExcept (m.collection t)
  let updated ← Step.ofExcept (m.type.fromMapping mapping)
  let record ← Step.ofExcept (m.toRecord updated)
  let found ← Step.onSnd (m.onCollection (Collection.update (m.type.id updated) record))
  let (_, t) ← Step.get
  Step.set (updated, t)
  return found

/-- The document with each value assigned at its path, in order. -/
def assignAll (mapping : Document) : List (FieldPath σ × Value) → Except Error Document
  | [] => .ok mapping
  | (path, v) :: rest =>
    match Document.setPath mapping path.attributePath v with
    | (.ok (), mapping) => assignAll mapping rest
    | (.error e, _) => .error e

/-- The document with the values of some attributes replaced; every key must be an attribute's. -/
def overrideAll (mapping : Document) : Document → Except Error Document
  | [] => .ok mapping
  | (key, v) :: rest =>
    match m.field key with
    | .ok _ => overrideAll (Keyed.insert mapping key v) rest
    | .error e => .error e

/-- Stores the instance with some attributes changed: first the assignments in their order, then the
overrides. The record replaced is the one under the identifier that results. Tells whether there
was such a record. -/
def update (assignments : List (FieldPath σ × Value)) (overrides : Document) :
    Step (D × Target) Bool := do
  let (d, _) ← Step.get
  let mapping ← Step.ofExcept (m.type.toMapping d)
  let mapping ← Step.ofExcept (assignAll mapping assignments)
  let mapping ← Step.ofExcept (m.overrideAll mapping overrides)
  m.persist mapping

/-- Updates the record under the instance's identifier, or adds the instance where there is
none. -/
def save : Step (D × Target) Bool := do
  let (d, t) ← Step.get
  let c ← Step.ofExcept (m.collection t)
  match ← Step.ofExcept (c.fetch (m.type.id d)) with
  | some _ => m.update [] []
  | none =>
    m.insert
    return true

/-- Saves instances one after another. -/
def saveEach : List D → Target → Except Error Bool × List D × Target
  | [], t => (.ok true, [], t)
  | d :: rest, t =>
    match m.save (d, t) with
    | (.ok saved, d, t) =>
      let (answer, rest, t) := saveEach rest t
      (answer.map (saved && ·), d :: rest, t)
    | (.error e, d, t) => (.error e, d :: rest, t)

/-- Saves instances one after another, and tells whether there were any and all were stored. -/
def saveAll : Step (List D × Target) Bool := fun (instances, t) =>
  let (answer, after, t) := m.saveEach instances t
  (answer.map (!instances.isEmpty && ·), after, t)

/-- Takes out the record with an identifier. Tells whether there was one. -/
def deleteById (id : RecordId) : Step Target Bool := m.onCollection (Collection.delete id)

/-- Takes out the record under the instance's identifier. Tells whether there was one. -/
def delete (d : D) : Step Target Bool := m.deleteById (m.type.id d)

/-- Removes the collection, and makes it anew if asked to. -/
def clear (recreate : Bool) : Step Target Unit := m.onCollection fun c =>
  (.ok (), if recreate then c.remove.create else c.remove)

end TypedStore.Model
