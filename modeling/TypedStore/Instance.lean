import TypedStore.DocumentType
import TypedStore.Value.Date

/-!
Three ways to make a document type whose instances are values.

A `typed` one has attributes of fixed kinds: reading checks and completes them, and drops every
other key, so that an instance always holds all its attributes, integers with 64 bits and numbers
as doubles. An array gives the attributes by their places. A value that is spelled as an object
with a `$` key counts as a document without any of the attributes.

A `freeForm` one takes every document as it is. An `anyValue` one takes every value, and so may
come out as something other than a document.

None of them reads a date and time after the year 9999: it becomes the last of that year.
-/

namespace TypedStore

/-- An attribute of a typed instance. -/
structure Attribute (σ : Type) where
  name : String
  kind : FieldKind σ
  /-- Whether null is taken, too. -/
  nullable : Bool := false
  /-- The value where the key is absent; without one the attribute is required. -/
  default : Option Value := none

namespace Attribute

variable {σ : Type}

/-- The attributes in their order, each with the value that was read or its default. -/
def complete? (read : List (String × Value)) : List (Attribute σ) → Option Document
  | [] => some []
  | a :: rest => do
    let v ← (Keyed.get? read a.name).or a.default
    let d ← complete? read rest
    some ((a.name, v) :: d)

/-- The attribute with a name. -/
def find? (attributes : List (Attribute σ)) (name : String) : Option (Attribute σ) :=
  attributes.find? fun a => a.name == name

/-- A value of a kind that is not embedded, as an instance has it. Text may come as plain bytes. -/
def readPlain? : FieldKind σ → Value → Option Value
  | .bool, .bool b => some (.bool b)
  | .int, .int32 n => some (.int64 n.toInt64)
  | .int, .int64 n => some (.int64 n)
  | .float, .int32 n => some (.double n.toInt64.toFloat)
  | .float, .int64 n => some (.double n.toFloat)
  | .float, .double x => some (.double x)
  | .string, .string text => some (.string text)
  | .string, .special (.binary subtype bytes) =>
    if subtype = 0 then (String.fromUTF8? ⟨bytes.toArray⟩).map .string else none
  | .dateTime, .dateTime millis => some (.dateTime (Value.capMillis millis))
  | .array, .array items => some (.array (Value.capItems items))
  | .map, .document entries => some (.document (Value.capEntries entries))
  | .any, v => some v.capDates
  | _, _ => none

variable (layout : σ → List (Attribute σ))

mutual

/-- A value of a kind, as an instance has it. -/
def read? (nullable : Bool) (kind : FieldKind σ) : Value → Option Value
  | .null => if nullable then some .null else readPlain? kind .null
  | .document entries =>
    match kind with
    | .embedded s => do
      let read ← readEntries? (layout s) entries
      let d ← complete? read (layout s)
      some (.document d)
    | kind => readPlain? kind (.document entries)
  | .array items =>
    match kind with
    | .embedded s => (readItems? (layout s) items).map .document
    | kind => readPlain? kind (.array items)
  | v =>
    match kind with
    | .embedded s =>
      if Json.isTagged v then (complete? [] (layout s)).map .document else none
    | kind => readPlain? kind v

/-- The entries of a document that belong to attributes, as an instance has them. -/
def readEntries? (attributes : List (Attribute σ)) :
    List (String × Value) → Option (List (String × Value))
  | [] => some []
  | (k, v) :: rest =>
    match find? attributes k with
    | none => readEntries? attributes rest
    | some a => do
      let w ← read? a.nullable a.kind v
      let read ← readEntries? attributes rest
      some ((k, w) :: read)

/-- The items of an array, each as the attribute in its place has it. The attributes after the last
item have their defaults, and the items after the last attribute are dropped. -/
def readItems? (attributes : List (Attribute σ)) : List Value → Option Document
  | [] => complete? [] attributes
  | v :: rest =>
    match attributes with
    | [] => some []
    | a :: attributes => do
      let w ← read? a.nullable a.kind v
      let d ← readItems? attributes rest
      some ((a.name, w) :: d)

end

/-- JSON of a kind that is not embedded, as an instance has it. -/
def readPlainJson? : FieldKind σ → Json → Option Value
  | .bool, .bool b => some (.bool b)
  | .int, .int n => Json.readInteger? .wide n
  | .float, j => j.number?.map .double
  | .string, .string text => some (.string text)
  | .array, .array items => (Json.readItems? .fitted items).map .array
  | .map, .object members => Json.read? .fitted (.object members)
  | .any, j => Json.read? .fitted j
  | _, _ => none

mutual

/-- JSON of a kind, as an instance has it. -/
def readJson? (nullable : Bool) (kind : FieldKind σ) : Json → Option Value
  | .null => if nullable then some .null else readPlainJson? kind .null
  | .object members =>
    match kind with
    | .embedded s => do
      let read ← readMembers? (layout s) members
      let d ← complete? read (layout s)
      some (.document d)
    | kind => readPlainJson? kind (.object members)
  | .array items =>
    match kind with
    | .embedded s => (readElements? (layout s) items).map .document
    | kind => readPlainJson? kind (.array items)
  | j => readPlainJson? kind j

/-- The members of an object that belong to attributes, as an instance has them. -/
def readMembers? (attributes : List (Attribute σ)) :
    List (String × Json) → Option (List (String × Value))
  | [] => some []
  | (k, j) :: rest =>
    match find? attributes k with
    | none => readMembers? attributes rest
    | some a => do
      let w ← readJson? a.nullable a.kind j
      let read ← readMembers? attributes rest
      some ((k, w) :: read)

/-- The items of a JSON array, each as the attribute in its place has it. The attributes after the
last item have their defaults; there may be no item after the last attribute. -/
def readElements? (attributes : List (Attribute σ)) : List Json → Option Document
  | [] => complete? [] attributes
  | j :: rest =>
    match attributes with
    | [] => none
    | a :: attributes => do
      let w ← readJson? a.nullable a.kind j
      let d ← readElements? attributes rest
      some ((a.name, w) :: d)

end

end Attribute

namespace DocumentType

variable {σ : Type} [SchemaGraph σ]

/-- The integer under the primary key, of either width; zero where there is none. -/
def idOf (s : σ) (d : Value) : RecordId :=
  match SchemaGraph.primaryKey s, d with
  | some key, .document entries => ((Keyed.get? entries key).bind Value.integer?).getD 0
  | _, _ => 0

/-- The document with the identifier under its primary key. -/
def withId (s : σ) (d : Value) (id : RecordId) : Value :=
  match SchemaGraph.primaryKey s, d with
  | some key, .document entries => .document (Keyed.insert entries key (.int64 id))
  | _, d => d

/-- The type whose instances are the documents of a layout. -/
def typed (layout : σ → List (Attribute σ)) (s : σ) : DocumentType σ Value where
  schema := s
  id := idOf s
  setId := withId s
  serialize := some
  deserialize mapping := Attribute.read? layout false (.embedded s) (.document mapping)
  toJson? d := some (.ofValue d)
  ofJson? := Attribute.readJson? layout false (.embedded s)

/-- The type whose instances are all documents. -/
def freeForm (s : σ) : DocumentType σ Value where
  schema := s
  id := idOf s
  setId := withId s
  serialize := some
  deserialize mapping := some (.document (Value.capEntries mapping))
  toJson? d := some (.ofValue d)
  ofJson?
    | .object members => Json.read? .fitted (.object members)
    | _ => none

/-- The type whose instances are all values; they have no place for an identifier. -/
def anyValue (s : σ) : DocumentType σ Value where
  schema := s
  id _ := 0
  setId d _ := d
  serialize := some
  deserialize mapping := some (.document (Value.capEntries mapping))
  toJson? d := some (.ofValue d)
  ofJson? := Json.read? .fitted

end DocumentType

end TypedStore
