import TypedStore.Operator

/-!
The ways in which an operation can fail, each with the causes that lead to it, and the text that
is shown for them.
-/

namespace TypedStore

/-- Why a document cannot be taken. -/
inductive InvalidDocument where
  /-- A value was to be assigned to the path with no segments. -/
  | emptyPath
  /-- A value was to be assigned below a key that holds something other than a document. -/
  | notBelow (key : String)
  /-- A document type stores its instances under their primary key, and this one has none. -/
  | noPrimaryKey (schema : String)
  /-- An instance came out as a value of this kind and not as a mapping. -/
  | notMapping (schema kind : String)
  /-- Something other than an object was to be imported. -/
  | notObject (schema : String)
  deriving DecidableEq, Repr

/-- Why an expression or a path cannot be built. -/
inductive MalformedExpression where
  | emptyPath (schema : String)
  | emptyMerge
  | mergedOperand
  /-- The left operand of a helper must depend on the record; this literal does not. -/
  | literalLeft (operator : Operator) (literal : String)
  deriving DecidableEq, Repr

/-- A failure. -/
inductive Error where
  /-- A value has not the shape its type asks for. -/
  | serialization
  | invalidDocument (cause : InvalidDocument)
  | unbound (schema : String)
  | malformedExpression (cause : MalformedExpression)
  | unknownField (schema field : String)
  | schemaConflict (collection bound requested : String)
  | collectionNotFound (collection : String)
  | emptyCollection (collection : String)
  deriving DecidableEq, Repr

/-- The text of a cause. -/
def InvalidDocument.message : InvalidDocument → String
  | .emptyPath => "cannot assign to an empty path"
  | .notBelow key => s!"cannot assign below {key}: value is not a document"
  | .noPrimaryKey schema => s!"{schema} declares no primary key"
  | .notMapping schema kind => s!"{schema} serialized to {kind}, expected a mapping"
  | .notObject schema => s!"expected a JSON object for {schema}"

/-- The text of a cause. -/
def MalformedExpression.message : MalformedExpression → String
  | .emptyPath schema => s!"empty attribute path on schema {schema}"
  | .emptyMerge => "cannot merge an empty expression list"
  | .mergedOperand => "only expressions can be merged"
  | .literalLeft operator literal =>
    s!"left operand of {operator.name} must be a field path or an expression, got {literal}"

/-- The text of a failure. -/
def Error.message : Error → String
  | .serialization => "Serialization error"
  | .invalidDocument cause => s!"Invalid document: {cause.message}"
  | .unbound schema => s!"Document {schema} is not bound to a collection"
  | .malformedExpression cause => s!"Malformed expression: {cause.message}"
  | .unknownField schema field => s!"Unknown field {field} on schema {schema}"
  | .schemaConflict collection bound requested =>
    s!"Collection {collection} is bound to {bound}, cannot bind {requested}"
  | .collectionNotFound collection => s!"Collection not found: {collection}"
  | .emptyCollection collection => s!"Collection {collection} is empty"

end TypedStore
