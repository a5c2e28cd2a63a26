import TypedStore.Schema
import TypedStore.Text.Dotted

/-!
Paths to attributes, top level or inside embedded schemas.

A path ends at an attribute and remembers the steps that lead to it, each an attribute of the
schema it was left through. A step that is taken twice is kept once, where it was taken last.
`resolve` follows a list of names from a schema and reports the first name that leads nowhere.
-/

namespace TypedStore

/-- A step into an embedded schema: the name of the attribute, and the schema that declares it. -/
structure Ancestor where
  name : String
  owner : String
  deriving DecidableEq, Repr

/-- An attribute, the name of the schema that declares it and the steps that lead there. -/
structure FieldPath (σ : Type) where
  field : Field σ
  owner : String
  ancestors : List Ancestor := []

namespace FieldPath

variable {σ : Type}

/-- The attribute names from the root to the attribute. -/
def attributePath (p : FieldPath σ) : List String :=
  p.ancestors.map Ancestor.name ++ [p.field.name]

/-- The attribute names joined by dots. -/
def attributeKey (p : FieldPath σ) : String := Dotted.join p.attributePath

/-- The keys that lead to the attribute in a record. -/
def recordSegments (p : FieldPath σ) : List String :=
  p.ancestors.map Ancestor.name ++ [p.field.recordKey false]

/-- The path as it is shown. -/
def display (p : FieldPath σ) : String := Dotted.join p.recordSegments

/-- The step through the attribute that the path leads to. -/
def step (p : FieldPath σ) : Ancestor := ⟨p.field.name, p.owner⟩

/-- The steps to what is below the path. Where its own step was taken before, the earlier occurrence
gives way to this one. -/
def stepsBelow (p : FieldPath σ) : List Ancestor := p.ancestors.filter (· ≠ p.step) ++ [p.step]

variable [SchemaGraph σ]

/-- Equality of paths: attribute, owner and steps. -/
def same (p q : FieldPath σ) : Bool :=
  p.field.same q.field && p.owner == q.owner && p.ancestors == q.ancestors

instance : BEq (FieldPath σ) := ⟨same⟩

/-- The path to an attribute of a schema. -/
def ofField (s : σ) (name : String) : Except Error (FieldPath σ) :=
  match SchemaGraph.fieldDef? s name with
  | some field => .ok { field, owner := SchemaGraph.name s }
  | none => .error (.unknownField (SchemaGraph.name s) name)

/-- The path one level down, into the schema that the attribute embeds. -/
def child (p : FieldPath σ) (name : String) : Except Error (FieldPath σ) :=
  match p.field.kind with
  | .embedded nested => do
    let target ← ofField nested name
    .ok { target with ancestors := p.stepsBelow }
  | _ => .error (.unknownField p.owner s!"{p.field.name}.{name}")

/-- The path down through the given names. -/
def descend (p : FieldPath σ) : List String → Except Error (FieldPath σ)
  | [] => .ok p
  | name :: rest => do
    let target ← p.child name
    target.descend rest

/-- The path that a list of names spells from a schema. -/
def resolve (s : σ) : List String → Except Error (FieldPath σ)
  | [] => .error (.malformedExpression (.emptyPath (SchemaGraph.name s)))
  | first :: rest => do
    let top ← ofField s first
    top.descend rest

/-- The path that a dotted key spells from a schema. -/
def ofDotted (s : σ) (key : String) : Except Error (FieldPath σ) := resolve s (Dotted.split key)

end FieldPath

end TypedStore
