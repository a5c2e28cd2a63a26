import TypedStore.Settings
import TypedStore.Json

/-!
Document types: what a store needs to know of a kind of document. The instances may be anything; a
type says how they are written as values and as JSON, how they are read from them, and where their
identifier is. It also brings the format in which a whole collection is exported and imported.
-/

namespace TypedStore

/-- A kind of document with instances in `D`. Writing and reading may fail, and an instance may be
written as a value that is not a document. -/
structure DocumentType (σ D : Type) where
  schema : σ
  id : D → RecordId
  setId : D → RecordId → D
  serialize : D → Option Value
  deserialize : Document → Option D
  toJson? : D → Option Json
  ofJson? : Json → Option D
  /-- How the documents of instances are exported as JSON and imported again. -/
  format : JsonFormat := .extended
  /-- The settings that the type gives itself. -/
  own : Option Settings := none
  /-- The settings of the types it builds on, the nearest first. -/
  bases : List Settings := []

namespace DocumentType

variable {σ D : Type} [SchemaGraph σ] (type : DocumentType σ D)

/-- The name of the type's schema. -/
def schemaName : String := SchemaGraph.name type.schema

/-- The instance as a document under attribute names. -/
def toMapping (d : D) : Except Error Document :=
  match type.serialize d with
  | some (.document mapping) => .ok mapping
  | some v => .error (.invalidDocument (.notMapping type.schemaName v.typeName))
  | none => .error .serialization

/-- The instance that a document under attribute names describes. -/
def fromMapping (mapping : Document) : Except Error D :=
  match type.deserialize mapping with
  | some d => .ok d
  | none => .error .serialization

/-- The instance as JSON. -/
def toJson (d : D) : Except Error Json :=
  match type.toJson? d with
  | some j => .ok j
  | none => .error .serialization

/-- The instance that JSON describes. -/
def fromJson (j : Json) : Except Error D :=
  match type.ofJson? j with
  | some d => .ok d
  | none => .error .serialization

/-- The settings of the type under some overrides. -/
def settings (overrides : Settings) : Settings :=
  Settings.resolve type.schemaName type.own type.bases overrides

end DocumentType

end TypedStore
