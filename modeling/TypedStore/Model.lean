import TypedStore.DocumentType
import TypedStore.Expression
import TypedStore.Schema.Renaming

/-!
Models: a document type together with the collection it is stored in.

A model that is registered with a database is bound to the collection of its name there; one that
is not has nowhere to store anything. Its operations therefore run on a `Target`, the collection it
is bound to, if any. This module holds the model itself and how instances are turned into records
and back: the primary key goes under the reserved key, and where the model stores by alias the
other keys are respelled.
-/

namespace TypedStore

/-- A document type in use, with the settings it was defined with. -/
structure Model (σ D : Type) where
  type : DocumentType σ D
  /-- The name of its collection. -/
  name : String
  /-- Whether its records are stored by alias. -/
  byAlias : Bool
  /-- The database it is registered with. -/
  database : Option Database := none

/-- The collection that a model is bound to, if it is. -/
abbrev Target : Type := Option Collection

namespace Model

variable {σ D : Type} [SchemaGraph σ] (m : Model σ D)

/-- Whether the model is registered with a database. -/
def isBound : Bool := m.database.isSome

/-- The attribute that holds the identifier. -/
def primaryKey : String := (SchemaGraph.primaryKey m.type.schema).getD reservedIdKey

theorem primaryKey_eq_of_some {m : Model σ D} {key : String}
    (h : SchemaGraph.primaryKey m.type.schema = some key) : m.primaryKey = key := by
  rw [primaryKey, h]
  rfl

/-- The collection the model is bound to. -/
def collection (t : Target) : Except Error Collection :=
  match t with
  | some c => .ok c
  | none => .error (.unbound m.type.schemaName)

/-- A step on the collection the model is bound to. -/
def onCollection {α : Type} (step : Step Collection α) : Step Target α := fun t =>
  match t with
  | some c =>
    let (answer, c) := step c
    (answer, some c)
  | none => (.error (.unbound m.type.schemaName), none)

/-! ## Identifiers -/

/-- The greatest identifier in the collection. -/
def lastId (t : Target) : Except Error RecordId := do
  let c ← m.collection t
  c.lastRecordId

/-- The identifier after the greatest one, or zero where there is none. -/
def generateId (t : Target) : RecordId :=
  match m.lastId t with
  | .ok id => id + 1
  | .error _ => 0

/-- The instance with the identifier that the model would generate. -/
def prepare (t : Target) (d : D) : D := m.type.setId d (m.generateId t)

/-- The instance a document describes, with a generated identifier if it has none. -/
def fromMapping (t : Target) (mapping : Document) : Except Error D :=
  m.type.fromMapping <|
    if Keyed.contains mapping m.primaryKey then mapping
    else Keyed.insert mapping m.primaryKey (.int64 (m.generateId t))

/-! ## Records -/

/-- A document whose value under one key is moved to the end, under another key. -/
def moveKey (source target : String) (d : Document) : Document :=
  match Keyed.get? d source with
  | some v => Keyed.insert (Keyed.erase d source) target v
  | none => d

theorem moveKey_eq_concat {source target : String} {d : Document} {v : Value}
    (hv : Keyed.get? d source = some v) (htarget : target ∉ Keyed.keys (Keyed.erase d source)) :
    moveKey source target d = Keyed.erase d source ++ [(target, v)] := by
  rw [moveKey, hv]
  exact Keyed.insert_of_notMem htarget v

theorem moveKey_of_notMem {source : String} {d : Document} (h : source ∉ Keyed.keys d)
    (target : String) : moveKey source target d = d := by
  rw [moveKey, Keyed.get?_eq_none_iff.mpr h]

theorem moveKey_concat {source target : String} {d : Document} (hsource : source ∉ Keyed.keys d)
    (htarget : target ∉ Keyed.keys d) (v : Value) :
    moveKey source target (d ++ [(source, v)]) = d ++ [(target, v)] := by
  have hget : Keyed.get? (d ++ [(source, v)]) source = some v := by
    rw [Keyed.get?_append, Keyed.get?_eq_none_iff.mpr hsource, Option.none_or, Keyed.get?_singleton,
      if_pos rfl]
  rw [moveKey_eq_concat hget] <;> rw [Keyed.erase_concat hsource]
  exact htarget

/-- Moving a value to the end under its own key changes no more than the order. -/
theorem perm_moveKey_self (key : String) {d : Document} (hd : Keyed.Nodup d) :
    (moveKey key key d).Perm d := by
  cases h : Keyed.get? d key with
  | none => rw [moveKey_of_notMem (Keyed.get?_eq_none_iff.mp h)]
  | some v =>
    rw [moveKey_eq_concat h (Keyed.notMem_keys_erase hd key)]
    exact Keyed.erase_concat_perm h

/-- A document in the spelling of the model's records. -/
def toStored (d : Document) : Document :=
  if m.byAlias then SchemaGraph.rename .aliases m.type.schema d else d

/-- A document in the spelling of the model's records, back under attribute names. -/
def ofStored (d : Document) : Document :=
  if m.byAlias then SchemaGraph.rename .attributes m.type.schema d else d

theorem toStored_of_unaliased {m : Model σ D} (h : m.byAlias = false) (d : Document) :
    m.toStored d = d := by
  simp [toStored, h]

theorem ofStored_of_unaliased {m : Model σ D} (h : m.byAlias = false) (d : Document) :
    m.ofStored d = d := by
  simp [ofStored, h]

/-- The record of an instance. -/
def toRecord (d : D) : Except Error Document := do
  let mapping ← m.type.toMapping d
  return m.toStored (moveKey m.primaryKey reservedIdKey mapping)

theorem toRecord_of_mapping {m : Model σ D} {d : D} {mapping : Document}
    (h : m.type.toMapping d = .ok mapping) :
    m.toRecord d = .ok (m.toStored (moveKey m.primaryKey reservedIdKey mapping)) := by
  rw [toRecord, h]
  rfl

/-- The instance of a record. -/
def fromRecord (record : Document) : Except Error D :=
  m.type.fromMapping (moveKey reservedIdKey m.primaryKey (m.ofStored record))

/-! ## Attributes -/

/-- The path to an attribute of the type. -/
def field (name : String) : Except Error (FieldPath σ) := FieldPath.ofField m.type.schema name

/-- The path that a dotted key spells. -/
def path (dotted : String) : Except Error (FieldPath σ) := FieldPath.ofDotted m.type.schema dotted

end Model

end TypedStore
