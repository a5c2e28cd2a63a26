import TypedStore.Model.Write

/-!
Finding or making an instance, and importing many.

`getOrCreate` and `updateOrCreate` look for the first instance that satisfies the conditions. Where
there is none they make one from what the conditions pin down, with the defaults over it. Defaults
go under dotted keys, each of which must spell a path of the schema.
-/

namespace TypedStore.Model

variable {σ D : Type} [SchemaGraph σ] (m : Model σ D)

/-- Whether every key spells a path of the schema; if not, what is wrong with the first that does
not. -/
def checkKeys : Document → Except Error Unit
  | [] => .ok ()
  | (key, _) :: rest =>
    match m.path key with
    | .ok _ => checkKeys rest
    | .error e => .error e

/-- What the conditions pin down, together. -/
def seed (filters : List (Expression σ)) : Except Error Document :=
  if filters.isEmpty then .ok []
  else do
    let condition ← Expression.merge .and (filters.map .expr)
    return condition.toMapping

/-- Adds an instance made from what the conditions pin down and the defaults. -/
def create (filters : List (Expression σ)) (defaults : Document) : Step Target D := do
  let seeded ← Step.ofExcept (seed filters)
  let t ← Step.get
  let made ← Step.ofExcept
    (m.fromMapping t (Document.merge seeded (Document.expandAll defaults)))
  let (_, made) ← Step.bringing made m.insert
  return made

/-- The first instance that satisfies the conditions, or else a new one. -/
def getOrCreate (filters : List (Expression σ)) (defaults : Document) : Step Target D := do
  Step.ofExcept (m.checkKeys defaults)
  match ← Step.read (m.findOne filters) with
  | some found => return found
  | none => m.create filters defaults

/-- The first instance that satisfies the conditions, updated with the defaults, or else a new
one. -/
def updateOrCreate (filters : List (Expression σ)) (defaults : Document) : Step Target D := do
  Step.ofExcept (m.checkKeys defaults)
  match ← Step.read (m.findOne filters) with
  | some found =>
    let mapping ← Step.ofExcept (m.type.toMapping found)
    let (_, updated) ← Step.bringing found
      (m.persist (Document.merge mapping (Document.expandAll defaults)))
    return updated
  | none => m.create filters defaults

/-! ## Import -/

/-- The document that an object to be imported describes, under attribute names. -/
def imported (j : Json) : Except Error Document :=
  match m.type.format.read? j with
  | some (.document members) => .ok (m.ofStored members)
  | some _ => .error (.invalidDocument (.notObject m.type.schemaName))
  | none => .error .serialization

/-- Imports an object: the instance it describes is saved. -/
def saveJson (j : Json) : Step Target D := do
  let mapping ← Step.ofExcept (m.imported j)
  let t ← Step.get
  let d ← Step.ofExcept (m.fromMapping t mapping)
  let (_, d) ← Step.bringing d m.save
  return d

/-- Imports objects one after another, up to the first that fails. -/
def bulkSave : List Json → Step Target (List D)
  | [] => return []
  | j :: rest => do
    let d ← m.saveJson j
    let ds ← bulkSave rest
    return d :: ds

end TypedStore.Model
