import TypedStore.Store

/-!
Databases. A database pairs a store with a registry of the schemas that its collections are bound
to. Several databases may have one store, with one registry or with a registry each; a `Cluster`
holds the stores and the registries, and a `Database` names one of each.
-/

namespace TypedStore

/-- The name of the schema that each bound collection is bound to. -/
abbrev Registry : Type := Keyed String String

/-- Which store and which registry a database has. -/
structure Database where
  store : Nat
  registry : Nat
  deriving DecidableEq, Repr

/-- The stores and registries of all databases. -/
structure Cluster where
  stores : Keyed Nat Store := []
  registries : Keyed Nat Registry := []

namespace Cluster

/-- A database's store. -/
def store (c : Cluster) (db : Database) : Store := (Keyed.get? c.stores db.store).getD []

/-- A database's registry. -/
def registry (c : Cluster) (db : Database) : Registry :=
  (Keyed.get? c.registries db.registry).getD []

/-- The cluster with another store for the database. -/
def setStore (c : Cluster) (db : Database) (s : Store) : Cluster :=
  { c with stores := Keyed.insert c.stores db.store s }

/-- The cluster with another registry for the database. -/
def setRegistry (c : Cluster) (db : Database) (r : Registry) : Cluster :=
  { c with registries := Keyed.insert c.registries db.registry r }

theorem store_setStore (c : Cluster) (db other : Database) (s : Store) :
    (c.setStore db s).store other = if db.store = other.store then s else c.store other := by
  simp only [setStore, store, Keyed.get?_insert]
  split <;> rfl

theorem registry_setRegistry (c : Cluster) (db other : Database) (r : Registry) :
    (c.setRegistry db r).registry other =
      if db.registry = other.registry then r else c.registry other := by
  simp only [setRegistry, registry, Keyed.get?_insert]
  split <;> rfl

/-- A step on a database's store. -/
def onStore {α : Type} (db : Database) (step : Step Store α) : Step Cluster α := fun c =>
  let (answer, s) := step (c.store db)
  (answer, c.setStore db s)

/-- A new database with a store of its own and nothing bound. -/
def create (c : Cluster) (s : Store) : Database × Cluster :=
  let db : Database := ⟨c.stores.length, c.registries.length⟩
  (db, (c.setStore db s).setRegistry db [])

/-- A database with another's store and a registry of its own. -/
def share (c : Cluster) (db : Database) : Database × Cluster :=
  let shared : Database := ⟨db.store, c.registries.length⟩
  (shared, c.setRegistry shared [])

/-- The schema that a collection is bound to in a database. -/
def boundSchema? (c : Cluster) (db : Database) (collection : String) : Option String :=
  Keyed.get? (c.registry db) collection

end Cluster

end TypedStore
