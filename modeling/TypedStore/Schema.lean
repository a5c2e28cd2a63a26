import TypedStore.Error

/-!
Schemas: the attributes that a document type declares.

Schemas refer to each other by handles of a type `σ`, so an attribute may embed any schema of the
family, the one it belongs to included; `SchemaGraph σ` gives each handle its declaration. A schema
may name a primary key. It counts as an attribute whether it is declared or not, and in a stored
record it always goes under the reserved key `__id`.
-/

namespace TypedStore

/-- The key of a record's identifier. -/
def reservedIdKey : String := "__id"

/-- What an attribute holds. -/
inductive FieldKind (σ : Type) where
  | bool
  | int
  | float
  | string
  | dateTime
  | array
  | map
  | any
  | embedded (schema : σ)
  deriving DecidableEq, Repr

/-- Which of its two names a key is spelled with: the attribute's own, or the one it has in
records that are stored by alias. -/
inductive Naming where
  | attributes
  | aliases
  deriving DecidableEq, Repr

/-- The other of the two spellings. -/
def Naming.other : Naming → Naming
  | .attributes => .aliases
  | .aliases => .attributes

/-- The declaration of an attribute. -/
structure Field (σ : Type) where
  name : String
  kind : FieldKind σ
  /-- The name in records that are stored by alias, where it differs. -/
  aliasName : Option String := none
  isPrimaryKey : Bool := false
  deriving DecidableEq, Repr

/-- The attribute that a primary key stands for. -/
def Field.primaryKey {σ : Type} (name : String) : Field σ :=
  { name, kind := .int, isPrimaryKey := true }

/-- The key an attribute has in a record: the reserved one for a primary key. -/
def Field.recordKey {σ : Type} (f : Field σ) (byAlias : Bool) : String :=
  if f.isPrimaryKey then reservedIdKey
  else if byAlias then f.aliasName.getD f.name
  else f.name

/-- The key an attribute has under a spelling. -/
def Field.spelled {σ : Type} (f : Field σ) : Naming → String
  | .attributes => f.name
  | .aliases => f.recordKey true

/-- What a document type declares. -/
structure Schema (σ : Type) where
  name : String
  primaryKey : Option String := none
  declared : List (Field σ)

/-- A finite family of schemas that may embed one another. -/
class SchemaGraph (σ : Type) where
  /-- What a handle stands for. -/
  schema : σ → Schema σ
  /-- The handles of the family. -/
  all : List σ
  mem_all : ∀ s, s ∈ all

namespace SchemaGraph

variable {σ : Type} [SchemaGraph σ]

/-- The name of a schema. Two handles with one name are the same schema to whoever compares
them. -/
def name (s : σ) : String := (schema s).name

/-- The primary key of a schema, if it has one. -/
def primaryKey (s : σ) : Option String := (schema s).primaryKey

/-- The attributes of a schema: the declared ones, and the primary key last when none of them has
its name. -/
def fields (s : σ) : List (Field σ) :=
  match primaryKey s with
  | none => (schema s).declared
  | some key =>
    if (schema s).declared.any (·.name == key) then (schema s).declared
    else (schema s).declared ++ [.primaryKey key]

/-- The attribute with a name. The primary key's name stands for the primary key, whatever is
declared under it; of several attributes with one name it is the first. -/
def fieldDef? (s : σ) (name : String) : Option (Field σ) :=
  if primaryKey s = some name then some (.primaryKey name)
  else (schema s).declared.find? (·.name == name)

end SchemaGraph

variable {σ : Type} [SchemaGraph σ]

/-- Equality of kinds: embedded schemas are the same when their names are. -/
def FieldKind.same : FieldKind σ → FieldKind σ → Bool
  | .embedded s, .embedded t => SchemaGraph.name s == SchemaGraph.name t
  | .bool, .bool => true
  | .int, .int => true
  | .float, .float => true
  | .string, .string => true
  | .dateTime, .dateTime => true
  | .array, .array => true
  | .map, .map => true
  | .any, .any => true
  | _, _ => false

/-- Equality of declarations. -/
def Field.same (f g : Field σ) : Bool :=
  f.name == g.name && f.kind.same g.kind && f.aliasName == g.aliasName
    && f.isPrimaryKey == g.isPrimaryKey

/-- The name of the type of value that a description gives for a kind. -/
def FieldKind.typeName : FieldKind σ → String
  | .bool => "boolean"
  | .int => "integer"
  | .float => "number"
  | .string => "string"
  | .dateTime => "datetime"
  | .array => "array"
  | .map => "object"
  | .any => "any"
  | .embedded _ => "object"

end TypedStore
