import TypedStore.Decimal128
import TypedStore.Keyed

/-!
Values and documents. A value is a scalar, an array, a document, or one of the values that carry
neither order nor arithmetic and are only ever compared as a whole: the special ones and code with
its scope. A document lists its entries in insertion order, each key once (`Value.WellFormed` says
so at every depth).
-/

namespace TypedStore

/-- Twelve bytes that identify an object. -/
structure ObjectId where
  bytes : List UInt8
  length_eq : bytes.length = 12
  deriving DecidableEq, Repr

/-- Values that are compared as a whole and take part in no operator but equality. -/
inductive Special where
  | undefined
  | minKey
  | maxKey
  | objectId (id : ObjectId)
  | binary (subtype : UInt8) (bytes : List UInt8)
  | timestamp (time increment : UInt32)
  | symbol (text : String)
  | code (text : String)
  | regularExpression (pattern options : String)
  | decimal128 (d : Decimal128)
  | dbPointer (collection : String) (id : ObjectId)
  deriving DecidableEq, Repr

/-- A value of a document. Integers come in two widths; a date and time counts milliseconds from
the epoch. The scope of a piece of code has the values of its variables. -/
inductive Value where
  | null
  | bool (b : Bool)
  | int32 (n : Int32)
  | int64 (n : Int64)
  | double (x : Float)
  | dateTime (millis : Int64)
  | string (text : String)
  | array (items : List Value)
  | document (entries : List (String × Value))
  | special (s : Special)
  | codeWithScope (text : String) (scope : List (String × Value))
  deriving Inhabited

/-- A document: values under keys, in insertion order. -/
abbrev Document : Type := Keyed String Value

namespace Value

/-- The name of the kind of value this is. -/
def typeName : Value → String
  | .null => "Null"
  | .bool _ => "Boolean"
  | .int32 _ => "Int32"
  | .int64 _ => "Int64"
  | .double _ => "Double"
  | .dateTime _ => "DateTime"
  | .string _ => "String"
  | .array _ => "Array"
  | .document _ => "EmbeddedDocument"
  | .special .undefined => "Undefined"
  | .special .minKey => "MinKey"
  | .special .maxKey => "MaxKey"
  | .special (.objectId _) => "ObjectId"
  | .special (.binary _ _) => "Binary"
  | .special (.timestamp _ _) => "Timestamp"
  | .special (.symbol _) => "Symbol"
  | .special (.code _) => "JavaScriptCode"
  | .special (.regularExpression _ _) => "RegularExpression"
  | .special (.decimal128 _) => "Decimal128"
  | .special (.dbPointer _ _) => "DbPointer"
  | .codeWithScope _ _ => "JavaScriptCodeWithScope"

/-- The document this value is, if it is one. -/
def document? : Value → Option Document
  | .document d => some d
  | _ => none

mutual

/-- Every document inside lists each key once, and so does every scope. -/
def WellFormed : Value → Prop
  | .array items => ItemsWellFormed items
  | .document entries => Keyed.Nodup entries ∧ EntriesWellFormed entries
  | .codeWithScope _ scope => Keyed.Nodup scope ∧ EntriesWellFormed scope
  | _ => True

/-- The values of an array are well formed. -/
def ItemsWellFormed : List Value → Prop
  | [] => True
  | v :: rest => v.WellFormed ∧ ItemsWellFormed rest

/-- The values of a document's entries are well formed. -/
def EntriesWellFormed : List (String × Value) → Prop
  | [] => True
  | (_, v) :: rest => v.WellFormed ∧ EntriesWellFormed rest

end

end Value

/-- Each key is listed once, here and in every document inside. -/
def Document.WellFormed (d : Document) : Prop := (Value.document d).WellFormed

end TypedStore
