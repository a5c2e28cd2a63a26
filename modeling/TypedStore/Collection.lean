import TypedStore.Step
import TypedStore.Schema

/-!
Collections of records. A collection keeps each record under the identifier it gave out for it,
and in the record under the reserved key, too. Identifiers count up from zero and are never given
out again, not even when their record is deleted, until the collection is made anew.

A collection can be absent: it may have been removed, or never made. Then every operation on its
records fails, and `create` makes it, empty.

The lemmas say what each write leaves under every identifier (`get?_store`, `get?_update`,
`get?_delete`) and that a write on an absent collection fails and changes nothing
(`change_absent`). What is read of a collection that is there comes from its contents
(`fetch_eq_ok`, `all_eq_ok`, `lastRecordId_eq`).
-/

namespace TypedStore

/-- What identifies a record in its collection. -/
abbrev RecordId : Type := Int64

/-- What a collection holds. -/
structure Contents where
  /-- The records under their identifiers, in ascending order. -/
  records : Keyed RecordId Document := []
  /-- The identifier of the next record. -/
  nextId : RecordId := 0
  /-- The description of the records' schema. It is advice: no record is checked against it. -/
  schema : Document := []

namespace Contents

/-- A record as it is kept: with its identifier under the reserved key. -/
def stamped (id : RecordId) (record : Document) : Document :=
  Keyed.insert record reservedIdKey (.int64 id)

/-- Adds a record under the next identifier. -/
def store (record : Document) (c : Contents) : RecordId × Contents :=
  (c.nextId, { c with
    records := Keyed.insert c.records c.nextId (stamped c.nextId record)
    nextId := c.nextId + 1 })

/-- Replaces the record with an identifier, if there is one. -/
def update (id : RecordId) (record : Document) (c : Contents) : Bool × Contents :=
  if Keyed.contains c.records id then
    (true, { c with records := Keyed.insert c.records id (stamped id record) })
  else (false, c)

/-- Takes out the record with an identifier, if there is one. -/
def delete (id : RecordId) (c : Contents) : Bool × Contents :=
  (Keyed.contains c.records id, { c with records := Keyed.erase c.records id })

theorem get?_store (record : Document) (c : Contents) (id : RecordId) :
    Keyed.get? (c.store record).2.records id =
      if c.nextId = id then some (stamped c.nextId record) else Keyed.get? c.records id :=
  Keyed.get?_insert ..

theorem get?_update (k : RecordId) (record : Document) (c : Contents) (id : RecordId) :
    Keyed.get? (c.update k record).2.records id =
      if k = id ∧ Keyed.contains c.records k = true then some (stamped k record)
      else Keyed.get? c.records id := by
  unfold update
  by_cases h : Keyed.contains c.records k = true
  · simp [h, Keyed.get?_insert]
  · simp [h]

theorem get?_delete {c : Contents} (hc : Keyed.Nodup c.records) (k id : RecordId) :
    Keyed.get? (c.delete k).2.records id =
      if k = id then none else Keyed.get? c.records id :=
  Keyed.get?_erase hc k id

end Contents

/-- A collection by its name, present or absent. -/
structure Collection where
  name : String
  contents : Option Contents := none

namespace Collection

/-- Makes the collection if it is absent. -/
def create (c : Collection) : Collection := { c with contents := some (c.contents.getD {}) }

/-- Removes the collection with all it holds. -/
def remove (c : Collection) : Collection := { c with contents := none }

/-- Whether the collection is there. -/
def isPresent (c : Collection) : Bool := c.contents.isSome

/-! ## Reading -/

/-- What the collection holds, if it is there. -/
def opened (c : Collection) : Except Error Contents :=
  match c.contents with
  | some contents => .ok contents
  | none => .error (.collectionNotFound c.name)

/-- The record with an identifier. -/
def fetch (c : Collection) (id : RecordId) : Except Error (Option Document) := do
  let contents ← c.opened
  return Keyed.get? contents.records id

/-- All records, by ascending identifier. -/
def all (c : Collection) : Except Error (List Document) := do
  let contents ← c.opened
  return contents.records.map Prod.snd

/-- The records that satisfy a condition, by ascending identifier. -/
def filter (c : Collection) (condition : Document → Bool) : Except Error (List Document) := do
  let records ← c.all
  return records.filter condition

/-- The number of records. -/
def size (c : Collection) : Except Error Nat := do
  let contents ← c.opened
  return contents.records.length

/-- The description of the records' schema. -/
def schema (c : Collection) : Except Error Document := do
  let contents ← c.opened
  return contents.schema

/-- The greatest identifier that a record has. -/
def lastRecordId (c : Collection) : Except Error RecordId := do
  let contents ← c.opened
  match contents.records.getLast? with
  | some (id, _) => return id
  | none => throw (.emptyCollection c.name)

theorem fetch_eq_ok {c : Collection} {contents : Contents} (hc : c.contents = some contents)
    (id : RecordId) : c.fetch id = .ok (Keyed.get? contents.records id) := by
  simp [fetch, opened, hc, bind, Except.bind, pure, Except.pure]

theorem all_eq_ok {c : Collection} {contents : Contents} (hc : c.contents = some contents) :
    c.all = .ok (contents.records.map Prod.snd) := by
  simp [all, opened, hc, bind, Except.bind, pure, Except.pure]

theorem lastRecordId_eq {c : Collection} {contents : Contents} (hc : c.contents = some contents) :
    c.lastRecordId =
      match (Keyed.keys contents.records).getLast? with
      | some id => .ok id
      | none => .error (.emptyCollection c.name) := by
  rw [Keyed.keys, List.getLast?_map]
  cases hlast : contents.records.getLast? <;>
    simp [lastRecordId, opened, hc, hlast, bind, Except.bind, pure, Except.pure, throw, throwThe,
      MonadExceptOf.throw]

/-! ## Writing -/

/-- A step on what the collection holds. -/
def change {α : Type} (f : Contents → α × Contents) : Step Collection α := fun c =>
  match c.contents with
  | some contents =>
    let (answer, contents) := f contents
    (.ok answer, { c with contents := some contents })
  | none => (.error (.collectionNotFound c.name), c)

/-- Adds a record and gives it the next identifier. -/
def store (record : Document) : Step Collection RecordId := change (Contents.store record)

/-- Puts a record in the place of the one with an identifier, if there is one. -/
def update (id : RecordId) (record : Document) : Step Collection Bool :=
  change (Contents.update id record)

/-- Takes out the record with an identifier, if there is one. -/
def delete (id : RecordId) : Step Collection Bool := change (Contents.delete id)

/-- Replaces the description of the records' schema. -/
def setSchema (schema : Document) : Step Collection Unit := change fun contents =>
  ((), { contents with schema })

theorem change_present {α : Type} (f : Contents → α × Contents) {c : Collection}
    {contents : Contents} (h : c.contents = some contents) :
    change f c = (.ok (f contents).1, { c with contents := some (f contents).2 }) := by
  simp [change, h]

theorem change_absent {α : Type} (f : Contents → α × Contents) {c : Collection}
    (h : c.contents = none) : change f c = (.error (.collectionNotFound c.name), c) := by
  simp [change, h]

end Collection

end TypedStore
