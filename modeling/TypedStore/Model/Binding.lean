import TypedStore.Model
import TypedStore.Schema.Description

/-!
Defining models and registering them with databases, and running their operations there.

A collection of a database is bound to the first schema that is registered under its name, for
good: schemas of another name are refused. Registering makes the collection if it is absent and
leaves the schema's description with it.
-/

namespace TypedStore.Model

variable {σ D : Type} [SchemaGraph σ]

/-- Registers a model with a database: binds the collection of its name, and the model to it. -/
def register (db : Database) : Step (Model σ D × Cluster) Unit := do
  let (m, c) ← Step.get
  let schemaName := m.type.schemaName
  match c.boundSchema? db m.name with
  | some bound =>
    if bound ≠ schemaName then Step.fail (.schemaConflict m.name bound schemaName)
  | none => pure ()
  Step.onSnd <| Cluster.onStore db fun s => (.ok (), s.ensure m.name)
  Step.onSnd <| Cluster.onStore db <| Store.within m.name <|
    Collection.setSchema (SchemaGraph.describe m.byAlias m.type.schema)
  let (_, c) ← Step.get
  Step.set ({ m with database := some db },
    c.setRegistry db (Keyed.insert (c.registry db) m.name schemaName))

/-- A model of a type, under some overrides of its settings; it is registered if the settings name
a database. The type must have a primary key. -/
def define (type : DocumentType σ D) (overrides : Settings) : Step Cluster (Model σ D) := do
  if (SchemaGraph.primaryKey type.schema).isNone then
    Step.fail (.invalidDocument (.noPrimaryKey type.schemaName))
  let settings := type.settings overrides
  let m : Model σ D :=
    { type, name := settings.collectionName, byAlias := settings.storedByAlias }
  match settings.database with
  | some db =>
    let (_, m) ← Step.bringing m (register db)
    return m
  | none => return m

variable (m : Model σ D)

/-- The collection that the model is bound to, in a cluster. -/
def target (c : Cluster) : Target := m.database.map fun db => (c.store db).collection m.name

/-- The cluster with what the model's collection has become. -/
def putTarget (c : Cluster) (t : Target) : Cluster :=
  match m.database, t with
  | some db, some collection =>
    c.setStore db ((c.store db).put m.name collection.contents)
  | _, _ => c

/-- Runs a step on the collection that the model is bound to. -/
def run {α : Type} (step : Step Target α) : Step Cluster α := fun c =>
  let (answer, t) := step (m.target c)
  (answer, m.putTarget c t)

/-- Runs a step on a value and the collection that the model is bound to. -/
def runWith {α β : Type} (step : Step (β × Target) α) : Step (β × Cluster) α := fun (b, c) =>
  let (answer, b, t) := step (b, m.target c)
  (answer, b, m.putTarget c t)

end TypedStore.Model
