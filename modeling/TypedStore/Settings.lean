import TypedStore.Database

/-!
Settings of a document type: the database it is stored in, the name of its collection and whether
its records are stored by alias. Each may be unset. Layers of settings fill each other's gaps, the
nearer before the farther: what is asked for when the type is defined, what the type says itself,
and what its bases say, the first base before the second.
-/

namespace TypedStore

/-- Settings, each of which may be left open. -/
structure Settings where
  database : Option Database := none
  name : Option String := none
  byAlias : Option Bool := none
  deriving DecidableEq, Repr

namespace Settings

/-- The settings with their gaps filled from another layer. -/
def orElse (s fallback : Settings) : Settings :=
  { database := s.database.or fallback.database
    name := s.name.or fallback.name
    byAlias := s.byAlias.or fallback.byAlias }

/-- The name of the collection; empty when it is unset. -/
def collectionName (s : Settings) : String := s.name.getD ""

/-- Whether records are stored by alias; they are not when it is unset. -/
def storedByAlias (s : Settings) : Bool := s.byAlias.getD false

/-- Overrides over a type's own settings over those it inherits. -/
def compose (own : Option Settings) (parent overrides : Settings) : Settings :=
  match own with
  | some own => (overrides.orElse own).orElse parent
  | none => overrides.orElse parent

/-- What is inherited from a list of bases. -/
def inherit (bases : List Settings) : Settings :=
  bases.foldr (fun base parent => compose (some base) parent {}) {}

/-- The settings of a type with a schema of this name. A name is never inherited: the schema's
stands in when the type and the overrides give none. -/
def resolve (schemaName : String) (own : Option Settings) (bases : List Settings)
    (overrides : Settings) : Settings :=
  compose own { inherit bases with name := some schemaName } overrides

end Settings

end TypedStore
