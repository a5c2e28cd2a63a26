import TypedStore.Model

/-!
What a model reads from its collection. Conditions see records under attribute names, however they
are stored; several conditions are one conjunction.
-/

namespace TypedStore.Model

variable {σ D : Type} [SchemaGraph σ] (m : Model σ D)

/-- The instance with an identifier. -/
def getById (id : RecordId) (t : Target) : Except Error (Option D) := do
  let c ← m.collection t
  match ← c.fetch id with
  | some record => some <$> m.fromRecord record
  | none => return none

/-- All instances, by ascending identifier. -/
def all (t : Target) : Except Error (List D) := do
  let c ← m.collection t
  let records ← c.all
  records.mapM m.fromRecord

/-- The number of instances. -/
def count (t : Target) : Except Error Nat := do
  let c ← m.collection t
  c.size

/-- The instances whose records satisfy all conditions, by ascending identifier. -/
def findAll (filters : List (Expression σ)) (t : Target) : Except Error (List D) :=
  if filters.isEmpty then m.all t
  else do
    let c ← m.collection t
    let condition ← Expression.merge .and (filters.map .expr)
    let records ← c.filter fun record => condition.satisfiedBy (m.ofStored record)
    records.mapM m.fromRecord

/-- The first instance whose record satisfies all conditions; where there are none, the instance
with identifier zero. -/
def findOne (filters : List (Expression σ)) (t : Target) : Except Error (Option D) :=
  if filters.isEmpty then m.getById 0 t
  else do
    let found ← m.findAll filters t
    return found.head?

/-- All instances as JSON, under aliases where the model stores by alias. -/
def exportAll (t : Target) : Except Error (List Json) := do
  let instances ← m.all t
  instances.mapM fun d => do
    let mapping ← m.type.toMapping d
    return m.type.format.write (.document (m.toStored mapping))

end TypedStore.Model
